import Mathlib
import SignatureCache.Proofs.Cache.Freshness
import SignatureCache.Proofs.Cache.Provenance
import SignatureCache.Proofs.Cache.Shape

/-!
# Values do not depend on the order

Requests that are all answered, the first of which plants a root that the others stay under, leave
the least tree that is asked for, with one seed. So the leaves of two such runs for the same have
the same values, which were handed down from the same seed. The keys over leaves of one power are
fresh, so they have the balanced product of the same values. Nothing is said about other keys: their
values depend on how fine the halves were when they were combined.
-/

namespace SignatureCache

open DyadicInterval SignatureCache.Tree

variable {V : Type}

/-- What a request asks for: its interval, or the pieces that a real interval is dissected into. -/
def Request.asks (request : Request V) (dissection : Dissection) : List Ask :=
  match request.query with
  | .dyadic I => [⟨I, request.resolution⟩]
  | .real I =>
    if I.isEmpty then []
    else
      match dissection I request.resolution with
      | .ok pieces => pieces.map fun piece => ⟨piece, request.resolution⟩
      | .error _ => []

/-- The requests for single intervals that a request comes to. -/
def Request.runs (request : Request V) (dissection : Dissection) : List (Source V × Ask) :=
  (request.asks dissection).map fun ask => (request.source, ask)

theorem Source.Withholds.refl (source : Source V) : source.Withholds source where
  fresh _ _ := .inl rfl
  combine := rfl
  split _ _ _ _ := .inl rfl

theorem Source.Withholds.multiplies {withheld source : Source V} {mul : V → V → V}
    (h : withheld.Withholds source) (hm : source.Multiplies mul) : withheld.Multiplies mul := by
  constructor
  · rw [h.combine]
    exact hm.left
  · rw [h.combine]
    exact hm.right

/-- The tree is full under `top`, and its leaves have what is handed down from there. -/
structure Tree.Seeded (source : Source V) (top : DyadicInterval) (t : Tree V) : Prop where
  full : t.FullUnder top
  handed : t.Handed source [top]

/-- What a run leaves that starts with `top` and asks for `asks`, all of it under `top`. -/
structure Tree.Settled (mul : V → V → V) (source : Source V) (top : DyadicInterval)
    (asks : List Ask) (t : Tree V) : Prop extends t.Seeded source top where
  exact : t.Exact
  fresh : t.Fresh mul
  least : IsLeast {S : Set DyadicInterval | Closed top asks S} {key | t.contains key = true}

namespace Tree

variable {mul : V → V → V} {source : Source V} {top key leaf : DyadicInterval}
  {asks asks' : List Ask} {t t' : Tree V} {node node' : Node V} {power : Int}

/-! ### Trees that the same was asked of -/

theorem Settled.sameShape (h : t.Settled mul source top asks) (h' : t'.Settled mul source top asks')
    (same : ∀ S, Closed top asks S ↔ Closed top asks' S) : t.SameShape t' := by
  have hset : {S : Set DyadicInterval | Closed top asks S} = {S | Closed top asks' S} :=
    Set.ext same
  have hkeys := h'.least.unique (hset ▸ h.least)
  apply sameShape_of_keys h.full h'.full h.exact h'.exact
  intro key
  rw [Bool.eq_iff_iff]
  exact Set.ext_iff.1 hkeys key

/-- The same leaf has the same value in both, as both have handed it down from one seed. -/
theorem Seeded.value_eq (h : t.Seeded source top) (h' : t'.Seeded source top)
    (hnode : t.find? leaf = some node) (hnode' : t'.find? leaf = some node')
    (hl : t.contains leaf.left = false) (hl' : t'.contains leaf.left = false) :
    node'.value = node.value := by
  obtain ⟨seed, hseed, -, hvalue⟩ := h.handed leaf node hnode hl
  obtain ⟨seed', hseed', -, hvalue'⟩ := h'.handed leaf node' hnode' hl'
  rw [List.mem_singleton.1 hseed] at hvalue
  rw [List.mem_singleton.1 hseed', hvalue] at hvalue'
  exact (Except.ok.inj hvalue').symm

/-- A key over leaves of one power has the same value in both trees. -/
theorem Settled.value_eq_of_even (h : t.Settled mul source top asks)
    (h' : t'.Settled mul source top asks') (hkeys : ∀ key, t'.contains key = t.contains key)
    (hnode : t.find? key = some node) (hnode' : t'.find? key = some node')
    (even : ∀ J, t.contains J = true → t.contains J.left = false → key.contains J = true →
      J.power = power) : node'.value = node.value := by
  -- The values of the leaves of the first tree, which are those of the second one too.
  let value : DyadicInterval → V := fun J => (t.find? J).elim node.value Node.value
  have he : t.EvenUnder key power value := by
    intro J leaf hJ hl hc
    refine ⟨even J (contains_of_find? hJ) hl hc, ?_⟩
    simp only [value, hJ, Option.elim_some]
  have he' : t'.EvenUnder key power value := by
    intro J leaf hJ hl hc
    have hl₁ : t.contains J.left = false := by rwa [hkeys] at hl
    have hJ₁ : t.contains J = true := by
      rw [← hkeys]
      exact contains_of_find? hJ
    obtain ⟨leaf₁, hleaf₁⟩ := exists_find?_of_contains hJ₁
    refine ⟨even J hJ₁ hl₁ hc, ?_⟩
    simp only [value, hleaf₁, Option.elim_some]
    exact h.toSeeded.value_eq h'.toSeeded hleaf₁ hJ hl₁ hl
  rw [h'.fresh.value_eq h'.exact h'.full hnode' he', h.fresh.value_eq h.exact h.full hnode he]

/-! ### One interval -/

/-- What is asked of one interval comes to what is asked of it at the finest resolution. -/
theorem closed_finest_iff {resolutions : List Int} {finest : Int} (hmem : finest ∈ resolutions)
    (hle : ∀ resolution ∈ resolutions, resolution ≤ finest) (S : Set DyadicInterval) :
    Closed top (resolutions.map fun resolution => ⟨top, resolution⟩) S ↔
      Closed top [⟨top, finest⟩] S := by
  have hask : (⟨top, finest⟩ : Ask) ∈ resolutions.map fun resolution => ⟨top, resolution⟩ :=
    List.mem_map.2 ⟨finest, hmem, rfl⟩
  constructor
  · intro h
    refine ⟨h.root, ?_, h.around, ?_⟩
    · intro ask hmem'
      rw [List.mem_singleton.1 hmem']
      exact h.asked _ hask
    · intro ask hmem'
      rw [List.mem_singleton.1 hmem']
      exact h.below _ hask
  · intro h
    refine ⟨h.root, ?_, h.around, ?_⟩
    · intro ask hmem'
      obtain ⟨resolution, -, rfl⟩ := List.mem_map.1 hmem'
      exact h.root
    · intro ask hmem' J hJ hc hlt
      obtain ⟨resolution, hresolution, rfl⟩ := List.mem_map.1 hmem'
      exact h.below _ List.mem_cons_self J hJ hc (hlt.trans_le (hle resolution hresolution))

/-- Where one interval was asked for, all leaves have one power. -/
theorem Settled.leaf_power {finest : Int} (h : t.Settled mul source top [⟨top, finest⟩])
    (hleaf : t.contains leaf = true) (hl : t.contains leaf.left = false) :
    leaf.power = max finest top.power := by
  have hclosed : Closed top [⟨top, finest⟩]
      {J | top.contains J = true ∧ J.power ≤ max finest top.power} := by
    refine ⟨⟨contains_self top, le_max_right _ _⟩, ?_, ?_, ?_⟩
    · intro ask hmem
      rw [List.mem_singleton.1 hmem]
      exact ⟨contains_self top, le_max_right _ _⟩
    · rintro J ⟨hc, hp⟩ hne
      have hparent := contains_parent_of_ne hc hne
      refine ⟨⟨hparent, ?_⟩, contains_trans hparent (parent_contains_sibling J), ?_⟩
      · rw [parent_power]
        omega
      · rwa [sibling_power]
    · rintro ask hmem J ⟨hc, -⟩ - hlt
      rw [List.mem_singleton.1 hmem] at hlt
      change J.power < finest at hlt
      refine ⟨⟨contains_trans hc (contains_left J), ?_⟩, contains_trans hc (contains_right J), ?_⟩
      · rw [left_power]
        omega
      · rw [right_power]
        omega
  obtain ⟨hc, hle⟩ := h.least.2 hclosed hleaf
  have hge := power_le_of_contains hc
  have hfine : ¬ leaf.power < finest := by
    intro hlt
    have hleft := (h.least.1.below _ List.mem_cons_self leaf hleaf hc hlt).1
    rw [Set.mem_ofPred_eq, hl] at hleft
    cases hleft
  omega

end Tree

namespace Work

variable {source withheld : Source V} {top I : DyadicInterval} {resolution : Int} {s s' : Store V}

/-- A query under the root adds no seed. -/
theorem Move.seeded (hm : Move withheld I resolution s s') (sources : withheld.Withholds source)
    (blind : source.Blind) (hI : top.contains I = true) (h : s.tree.Seeded source top) :
    s'.tree.Seeded source top := by
  have houter : ∀ {root}, s.tree.FullUnder root → root.contains I = false → False := by
    intro root hroot hout
    obtain rfl : root = top := Option.some_inj.1 (hroot.root?_eq.symm.trans h.full.root?_eq)
    rw [hI] at hout
    cases hout
  cases hm with
  | ask => exact h
  | hit => exact h
  | plant hempty =>
    have hroot := h.full.contains_root
    rw [hempty, contains_empty] at hroot
    cases hroot
  | compute root hroot _ hout => exact (houter hroot hout).elim
  | grow hroot _ hout => exact (houter hroot hout).elim
  | @split leaf node leftValue rightValue hnode hl _ hv =>
    have hleaf := contains_of_find? hnode
    obtain ⟨hkeys, hsame⟩ := propagate_leaves withheld (s := s.halved leaf leftValue rightValue)
      (h.full.halved hleaf hl leftValue rightValue) (contains_halved.2 (.inl rfl))
    exact ⟨(fullUnder_split withheld h.full hleaf hl leftValue rightValue).1,
      (h.handed.halved h.full hnode hl (sources.split_of_ok blind hv)).congr hkeys hsame⟩

/-- The first query plants the seed. -/
theorem Move.seeded_of_empty (hm : Move withheld top resolution s s')
    (sources : withheld.Withholds source) (blind : source.Blind)
    (h : s.tree = empty ∨ s.tree.Seeded source top) :
    s'.tree = empty ∨ s'.tree.Seeded source top := by
  rcases h with hempty | h
  · have hnone : ∀ key, s.tree.contains key ≠ true := by
      intro key
      rw [hempty, contains_empty]
      exact Bool.false_ne_true
    cases hm with
    | ask => exact .inl hempty
    | hit => exact .inl hempty
    | @plant value _ hv =>
      refine .inr ⟨fullUnder_planted hempty value, ?_⟩
      rw [Store.planted, hempty]
      exact handed_plant (sources.fresh_of_ok blind hv) List.mem_cons_self
    | compute root hroot => exact absurd hroot.contains_root (hnone _)
    | grow hroot => exact absurd hroot.contains_root (hnone _)
    | split hnode => exact absurd (contains_of_find? hnode) (hnone _)
  · exact .inr (hm.seeded sources blind (contains_self top) h)

end Work

namespace Cache

open Work

variable {cache cache' : Cache V} {requests : List (Request V)} {runs : List (Source V × Ask)}
  {source : Source V} {mul : V → V → V} {top : DyadicInterval} {asks : List Ask}

/-- All requests are answered, one after the other. -/
def Answered (cache : Cache V) : List (Request V) → Prop
  | [] => True
  | request :: requests =>
    (∃ value, (cache.answer request.source request.query request.resolution).1 = .ok value) ∧
      Answered (cache.answer request.source request.query request.resolution).2 requests

theorem answered_append (cache : Cache V) (earlier later : List (Request V)) :
    cache.Answered (earlier ++ later) ↔
      cache.Answered earlier ∧ (cache.after earlier).Answered later := by
  induction earlier generalizing cache with
  | nil => simp [Answered, after]
  | cons request earlier ih =>
    rw [List.cons_append, Answered, Answered, ih, after_cons, and_assoc]

/-! ### Piece by piece -/

/-- Pieces that are all answered one after the other are answered as requests of their own. -/
theorem answered_of_mapM (cache : Cache V) {resolution : Int} {pieces : List DyadicInterval}
    {values : List V} {s : Store V}
    (hrun : pieces.mapM (fun piece => dyadicValue cache.policy source piece resolution)
      cache.store = .ok values s) :
    cache.Answered (requestsOf (pieces.map fun piece => (source, ⟨piece, resolution⟩))) ∧
      cache.after (requestsOf (pieces.map fun piece => (source, ⟨piece, resolution⟩))) =
        { cache with store := s } := by
  induction pieces generalizing cache values with
  | nil =>
    cases hrun
    exact ⟨trivial, rfl⟩
  | cons piece pieces ih =>
    rw [List.mapM_cons] at hrun
    obtain ⟨value, s₁, hpiece, hrest⟩ := exists_of_bind_ok hrun
    obtain ⟨values', s₂, hpieces, hpure⟩ := exists_of_bind_ok hrest
    cases hpure
    have hanswer := answer_dyadic_of_ok hpiece
    obtain ⟨hall, hafter⟩ := ih { cache with store := s₁ } hpieces
    refine ⟨⟨⟨value, ?_⟩, ?_⟩, ?_⟩
    · exact congrArg Prod.fst hanswer
    · change Answered (cache.answer source (.dyadic piece) resolution).2 _
      rwa [hanswer]
    · change (cache.answer source (.dyadic piece) resolution).2.after _ = _
      rwa [hanswer]

/-- A request that is answered does what its single requests do, all of which are answered. -/
theorem answered_runs (cache : Cache V) {request : Request V} {value : V}
    (h : cache.answer request.source request.query request.resolution = (.ok value, cache')) :
    cache.Answered (requestsOf (request.runs cache.dissection)) ∧
      cache.after (requestsOf (request.runs cache.dissection)) = cache' := by
  obtain ⟨source, query, resolution⟩ := request
  cases query with
  | dyadic I => exact ⟨⟨⟨value, congrArg Prod.fst h⟩, trivial⟩, congrArg Prod.snd h⟩
  | real I =>
    have hrun := run_of_answer_ok h
    rw [eq_of_answer h]
    rcases realValue_ok_cases hrun with ⟨hempty, -, hsame⟩ |
      ⟨pieces, values, hempty, -, hpieces, hvalues, -⟩
    · rw [hsame]
      simp [Request.runs, Request.asks, hempty, requestsOf, Answered, after]
    · have hruns : Request.runs ⟨source, .real I, resolution⟩ cache.dissection =
          pieces.map fun piece => (source, ⟨piece, resolution⟩) := by
        simp [Request.runs, Request.asks, hempty, hpieces]
      rw [hruns]
      exact answered_of_mapM cache hvalues

/-- Requests that are all answered do what their single requests do. -/
theorem answered_all {cache : Cache V} {requests : List (Request V)} (h : cache.Answered requests) :
    cache.Answered (requestsOf (requests.flatMap (Request.runs · cache.dissection))) ∧
      cache.after (requestsOf (requests.flatMap (Request.runs · cache.dissection))) =
        cache.after requests := by
  induction requests generalizing cache with
  | nil => exact ⟨trivial, rfl⟩
  | cons request requests ih =>
    obtain ⟨⟨value, hvalue⟩, hrest⟩ := h
    obtain ⟨hfirst, hafter⟩ := answered_runs cache (Prod.fst_eq_iff.1 hvalue)
    obtain ⟨hall, hend⟩ := ih hrest
    have hdissection : (cache.answer request.source request.query
        request.resolution).2.dissection = cache.dissection := by
      rw [answer_snd]
    rw [hdissection] at hall hend
    have happend : requestsOf ((request :: requests).flatMap (Request.runs · cache.dissection)) =
        requestsOf (request.runs cache.dissection) ++
          requestsOf (requests.flatMap (Request.runs · cache.dissection)) := by
      rw [List.flatMap_cons, requestsOf, List.map_append]
      rfl
    rw [happend, answered_append, after_append, hafter, after_cons]
    exact ⟨⟨hfirst, hall⟩, hend⟩

/-! ### What is answered is served -/

theorem served_of_answered (cache : Cache V)
    (h : cache.store.Steady cache.policy.maxResolution)
    (answered : cache.Answered (requestsOf runs)) :
    ∀ run ∈ runs, Served run.2 (cache.after (requestsOf runs)).store := by
  induction runs generalizing cache with
  | nil => exact fun _ hrun => absurd hrun List.not_mem_nil
  | cons run runs ih =>
    obtain ⟨source, ask⟩ := run
    obtain ⟨⟨value, hvalue⟩, hrest⟩ := answered
    obtain ⟨-, hm, node, hnode, -, hacc⟩ :=
      dyadicValue_sharp h.full (run_of_answer_ok (Prod.fst_eq_iff.1 hvalue))
    have hpolicy : (cache.answer source (.dyadic ask.interval) ask.resolution).2.policy =
        cache.policy := by
      rw [answer_snd]
    have h₁ : (cache.answer source (.dyadic ask.interval) ask.resolution).2.store.Steady
        cache.policy.maxResolution := answer_steady cache (ask.request source) h
    intro run hrun
    rcases List.mem_cons.1 hrun with rfl | hrun
    · obtain ⟨root, hroot⟩ := (hm.full h.full).exists_fullUnder (contains_of_find? hnode)
      have hserved : Served ask
          (cache.answer source (.dyadic ask.interval) ask.resolution).2.store :=
        ⟨contains_of_find? hnode, fun J hc hp => h₁.modest.contains_of_le hroot hnode hacc hc hp⟩
      exact hserved.mono (after_contains _ _ h₁.full)
    · exact ih _ (hpolicy ▸ h₁) hrest run hrun

/-- The first query that is answered plants the seed, and those under it add none. -/
theorem seeded_of_answered {policy : Policy} {dissection : Dissection} {first : Source V}
    {resolution : Int} (blind : source.Blind)
    (sources : ∀ run ∈ (first, ⟨top, resolution⟩) :: runs, run.1.Withholds source)
    (inside : ∀ run ∈ runs, top.contains run.2.interval = true)
    (answered : ({ policy, dissection } : Cache V).Answered
      (requestsOf [(first, ⟨top, resolution⟩)])) :
    (({ policy, dissection } : Cache V).after
      (requestsOf ((first, ⟨top, resolution⟩) :: runs))).store.tree.Seeded source top := by
  have hfirst := sources _ List.mem_cons_self
  have hserved := served_of_answered _ (steady_empty policy.maxResolution) answered _
    List.mem_cons_self
  have hplanted : (({ policy, dissection } : Cache V).after
      (requestsOf [(first, ⟨top, resolution⟩)])).store.tree.Seeded source top := by
    refine (after_induction (P := fun s => s.tree = empty ∨ s.tree.Seeded source top) ?_ ?_
      (.inl rfl)).resolve_left ?_
    · rintro s (hempty | hs)
      · exact .inl hempty
      · exact .inr ⟨top, hs.full⟩
    · intro request hrequest I hI _ s s' hs hm
      obtain rfl := List.mem_singleton.1 hrequest
      obtain rfl := List.mem_singleton.1 hI
      exact hm.seeded_of_empty hfirst blind hs
    · intro hempty
      have hasked := hserved.asked
      rw [hempty, contains_empty] at hasked
      cases hasked
  change ((({ policy, dissection } : Cache V).after
    (requestsOf [(first, ⟨top, resolution⟩)])).after (requestsOf runs)).store.tree.Seeded source top
  apply after_induction (P := fun s => s.tree.Seeded source top) _ _ hplanted
  · exact fun s hs => .inr ⟨top, hs.full⟩
  · intro request hrequest I hI _ s s' hs hm
    obtain ⟨⟨withheld, ask⟩, hrun, rfl⟩ := List.mem_map.1 hrequest
    obtain rfl : I = ask.interval := List.mem_singleton.1 hI
    exact hm.seeded (sources _ (List.mem_cons_of_mem _ hrun)) blind (inside _ hrun) hs

/-- Single requests that are all answered, start with `top` and stay under it settle a tree. -/
theorem settled_of_answered {policy : Policy} {dissection : Dissection} {first : Source V}
    {resolution : Int} (blind : source.Blind) (hmul : source.Multiplies mul)
    (sources : ∀ run ∈ (first, ⟨top, resolution⟩) :: runs, run.1.Withholds source)
    (inside : ∀ run ∈ (first, ⟨top, resolution⟩) :: runs, top.contains run.2.interval = true)
    (hasks : ∀ ask, ask ∈ asks ↔ ask ∈ ((first, ⟨top, resolution⟩) :: runs).map Prod.snd)
    (answered : ({ policy, dissection } : Cache V).Answered
      (requestsOf ((first, ⟨top, resolution⟩) :: runs))) :
    (({ policy, dissection } : Cache V).after (requestsOf
      ((first, ⟨top, resolution⟩) :: runs))).store.tree.Settled mul source top asks := by
  have multiplies : ∀ run ∈ (first, ⟨top, resolution⟩) :: runs, run.1.Multiplies mul :=
    fun run hrun => (sources run hrun).multiplies hmul
  have hserved := served_of_answered _ (steady_empty policy.maxResolution) answered
  have hseeded := seeded_of_answered blind sources
    (fun run hrun => inside run (List.mem_cons_of_mem _ hrun)) ⟨answered.1, trivial⟩
  have hrequests : ∀ request ∈ requestsOf ((first, ⟨top, resolution⟩) :: runs),
      request.source.Multiplies mul := by
    intro request hrequest
    obtain ⟨run, hrun, rfl⟩ := List.mem_map.1 hrequest
    exact multiplies run hrun
  have hend := after_multiplied { policy, dissection } hrequests
    (multiplied_empty mul policy.maxResolution)
  have hall : ∀ ask ∈ asks, Served ask (({ policy, dissection } : Cache V).after
      (requestsOf ((first, ⟨top, resolution⟩) :: runs))).store := by
    intro ask hask
    obtain ⟨run, hrun, rfl⟩ := List.mem_map.1 ((hasks ask).1 hask)
    exact hserved run hrun
  have hspans : top.Spans (asks.map Ask.interval) := by
    refine ⟨?_, ?_⟩
    · intro I hI
      obtain ⟨ask, hask, rfl⟩ := List.mem_map.1 hI
      obtain ⟨run, hrun, rfl⟩ := List.mem_map.1 ((hasks ask).1 hask)
      exact inside run hrun
    · intro K hK
      exact hK top (List.mem_map.2 ⟨_, (hasks ⟨top, resolution⟩).2 List.mem_cons_self, rfl⟩)
  obtain ⟨-, hclosed⟩ := closed_keys hseeded.full hspans (fun _ => hseeded.full.root_contains) hall
  exact
    { toSeeded := hseeded
      exact := hend.exact
      fresh := hend.fresh
      least := ⟨hclosed, fun S hS key hkey => after_mem_closed { policy, dissection }
        (fun run hrun => (hasks run.2).2 (List.mem_map.2 ⟨run, hrun, rfl⟩)) inside hS rfl key
        hkey⟩ }

/-- A run of requests that are all answered, starts with an interval and stays under it. -/
structure StaysUnder (cache : Cache V) (source : Source V) (top : DyadicInterval)
    (requests : List (Request V)) : Prop where
  sources : ∀ request ∈ requests, request.source.Withholds source
  answered : cache.Answered requests
  first : ∃ resolution, (requests.flatMap (Request.asks · cache.dissection)).head? =
    some ⟨top, resolution⟩
  inside : ∀ ask ∈ requests.flatMap (Request.asks · cache.dissection),
    top.contains ask.interval = true

theorem StaysUnder.settled {policy : Policy} {dissection : Dissection} (blind : source.Blind)
    (hmul : source.Multiplies mul)
    (h : StaysUnder { policy, dissection } source top requests)
    (hasks : ∀ ask, ask ∈ asks ↔ ask ∈ requests.flatMap (Request.asks · dissection)) :
    (({ policy, dissection } : Cache V).after requests).store.tree.Settled mul source top asks := by
  obtain ⟨hanswered, hafter⟩ := answered_all h.answered
  obtain ⟨resolution, hfirst⟩ := h.first
  have hmap : (requests.flatMap (Request.runs · dissection)).map Prod.snd =
      requests.flatMap (Request.asks · dissection) := by
    simp [List.map_flatMap, Request.runs, Function.comp_def]
  have hsources : ∀ run ∈ requests.flatMap (Request.runs · dissection),
      run.1.Withholds source := by
    intro run hrun
    obtain ⟨request, hrequest, hrun⟩ := List.mem_flatMap.1 hrun
    obtain ⟨ask, -, rfl⟩ := List.mem_map.1 hrun
    exact h.sources request hrequest
  have hinside : ∀ run ∈ requests.flatMap (Request.runs · dissection),
      top.contains run.2.interval = true := by
    intro run hrun
    apply h.inside
    rw [← hmap]
    exact List.mem_map.2 ⟨run, hrun, rfl⟩
  change (requests.flatMap (Request.asks · dissection)).head? = _ at hfirst
  rw [← hmap] at hfirst hasks
  rw [← hafter]
  change Answered _ (requestsOf (requests.flatMap (Request.runs · dissection))) at hanswered
  change Tree.Settled mul source top asks (Cache.after _
    (requestsOf (requests.flatMap (Request.runs · dissection)))).store.tree
  generalize requests.flatMap (Request.runs · dissection) = runs at *
  cases runs with
  | nil => cases hfirst
  | cons run runs =>
    obtain ⟨withheld, ask⟩ := run
    rw [List.map_cons, List.head?_cons, Option.some_inj] at hfirst
    change ask = _ at hfirst
    subst hfirst
    exact settled_of_answered blind hmul hsources hinside hasks hanswered

/-- The requests for one interval at some resolutions. -/
def topRequests (source : Source V) (top : DyadicInterval) (resolutions : List Int) :
    List (Request V) :=
  resolutions.map fun resolution => ⟨source, .dyadic top, resolution⟩

theorem asks_topRequests (source : Source V) (resolutions : List Int) (dissection : Dissection) :
    (topRequests source top resolutions).flatMap (Request.asks · dissection) =
      resolutions.map fun resolution => ⟨top, resolution⟩ := by
  rw [topRequests, List.flatMap_map]
  exact (List.map_eq_flatMap).symm

theorem staysUnder_topRequests {withheld : Source V} {resolutions : List Int}
    (hsource : withheld.Withholds source) (hne : resolutions ≠ [])
    (answered : cache.Answered (topRequests withheld top resolutions)) :
    cache.StaysUnder source top (topRequests withheld top resolutions) where
  sources := by
    intro request hrequest
    obtain ⟨resolution, -, rfl⟩ := List.mem_map.1 hrequest
    exact hsource
  answered := answered
  first := by
    rw [asks_topRequests]
    obtain ⟨resolution, rest, rfl⟩ := List.exists_cons_of_ne_nil hne
    exact ⟨resolution, rfl⟩
  inside := by
    intro ask hask
    rw [asks_topRequests] at hask
    obtain ⟨resolution, -, rfl⟩ := List.mem_map.1 hask
    exact contains_self top

/-- Two runs of answered requests to empty caches that start with one interval, stay under it and
ask for the same, in any order and any number, leave trees of one shape that agree on the values of
all leaves and of all keys over leaves of one power. In particular asking for one interval at some
resolutions, in any order, leaves the tree that asking for it once, at the finest of them, leaves.
Of the sources it is only used that they give what one blind source gives, if anything, and that
this one combines by a multiplication. -/
theorem reordered_after_requests (mul : V → V → V) (source : Source V) (blind : source.Blind)
    (hmul : source.Multiplies mul) (policy policy' : Policy) (dissection dissection' : Dissection)
    (top : DyadicInterval) :
    let cache : Cache V := { policy, dissection }
    let cache' : Cache V := { policy := policy', dissection := dissection' }
    (∀ requests requests', cache.StaysUnder source top requests →
      cache'.StaysUnder source top requests' →
      (∀ ask, ask ∈ requests.flatMap (Request.asks · dissection) ↔
        ask ∈ requests'.flatMap (Request.asks · dissection')) →
      let t := (cache.after requests).store.tree
      let t' := (cache'.after requests').store.tree
      t.SameShape t' ∧
      (∀ leaf node node', t.find? leaf = some node → t'.find? leaf = some node' →
        t.contains leaf.left = false → node'.value = node.value) ∧
      ∀ key node node' power, t.find? key = some node → t'.find? key = some node' →
        (∀ J, t.contains J = true → t.contains J.left = false → key.contains J = true →
          J.power = power) → node'.value = node.value) ∧
    ∀ (withheld : Source V) (resolutions : List Int) (finest : Int),
      withheld.Withholds source → finest ∈ resolutions →
      (∀ resolution ∈ resolutions, resolution ≤ finest) →
      cache.Answered (topRequests withheld top resolutions) →
      cache'.Answered (topRequests withheld top [finest]) →
      (cache'.after (topRequests withheld top [finest])).store.tree =
        (cache.after (topRequests withheld top resolutions)).store.tree := by
  intro cache cache'
  refine ⟨?_, ?_⟩
  · intro requests requests' hunder hunder' same t t'
    have h : t.Settled mul source top _ := hunder.settled blind hmul fun _ => .rfl
    have h' : t'.Settled mul source top _ := hunder'.settled blind hmul same
    have hshape := h.sameShape h' fun _ => .rfl
    have hkeys := hshape.contains_eq
    refine ⟨hshape, ?_, ?_⟩
    · intro leaf node node' hnode hnode' hl
      exact h.value_eq h'.toSeeded hnode hnode' hl ((hkeys _).trans hl)
    · intro key node node' power hnode hnode' even
      exact h.value_eq_of_even h' hkeys hnode hnode' even
  · intro withheld resolutions finest hsource hmem hle hanswered hanswered'
    have h : Tree.Settled mul source top _ _ :=
      (staysUnder_topRequests hsource (List.ne_nil_of_mem hmem) hanswered).settled blind hmul
        fun ask => by rw [asks_topRequests]
    have h' : Tree.Settled mul source top _ _ :=
      (staysUnder_topRequests hsource (List.cons_ne_nil _ _) hanswered').settled blind hmul
        fun ask => by rw [asks_topRequests]
    have hshape := h.sameShape h' fun S =>
      (closed_finest_iff hmem hle S).trans (by rw [List.map_singleton])
    apply hshape.eq
    intro key node node' hnode hnode'
    apply h.value_eq_of_even h' hshape.contains_eq hnode hnode'
    intro J hJ hl _
    rw [← hshape.contains_eq] at hJ hl
    exact h'.leaf_power hJ hl

/-- A half is asked for after or before the whole interval is refined. -/
theorem reordered_after_two_orders :
    let T : Transcript := ⟨"v", [], false, none⟩
    let root : Request String := ⟨T.source, .dyadic ⟨0, 0⟩, 0⟩
    let whole : Request String := ⟨T.source, .dyadic ⟨0, 0⟩, 1⟩
    let half : Request String := ⟨T.source, .dyadic ⟨1, 1⟩, 2⟩
    let t := (({} : Cache String).after [root, whole, half]).store.tree
    let t' := (({} : Cache String).after [root, half, whole, half]).store.tree
    t.SameShape t' ∧
      (∀ leaf node node', t.find? leaf = some node → t'.find? leaf = some node' →
        t.contains leaf.left = false → node'.value = node.value) ∧
      (({} : Cache String).after (topRequests T.source ⟨0, 0⟩ [1])).store.tree =
        (({} : Cache String).after (topRequests T.source ⟨0, 0⟩ [1, 0])).store.tree := by
  intro T root whole half t t'
  have hsource : ∀ requests : List (Request String), requests ⊆ [root, whole, half] →
      ∀ request ∈ requests, request.source.Withholds T.source := by
    intro requests hsub request hrequest
    have hmem := hsub hrequest
    simp only [List.mem_cons, List.not_mem_nil, or_false] at hmem
    rcases hmem with rfl | rfl | rfl
    · exact .refl _
    · exact .refl _
    · exact .refl _
  have hunder : StaysUnder ({} : Cache String) T.source ⟨0, 0⟩ [root, whole, half] :=
    ⟨hsource _ (by simp), ⟨⟨"v0:0", by cbv⟩, ⟨"(hv0:0 hv0:0)", by cbv⟩,
      ⟨"(hhv0:0 hhv0:0)", by cbv⟩, trivial⟩, ⟨0, rfl⟩, by decide⟩
  have hunder' : StaysUnder ({} : Cache String) T.source ⟨0, 0⟩ [root, half, whole, half] :=
    ⟨hsource _ (by simp), ⟨⟨"v0:0", by cbv⟩, ⟨"(hhv0:0 hhv0:0)", by cbv⟩,
      ⟨"(hv0:0 hv0:0)", by cbv⟩, ⟨"(hhv0:0 hhv0:0)", by cbv⟩, trivial⟩, ⟨0, rfl⟩, by decide⟩
  have hsame : ∀ ask, ask ∈ [root, whole, half].flatMap (Request.asks · Dissection.onGrid) ↔
      ask ∈ [root, half, whole, half].flatMap (Request.asks · Dissection.onGrid) := by
    intro ask
    simp only [Request.asks, root, whole, half, List.flatMap_cons, List.flatMap_nil,
      List.append_nil, List.cons_append, List.nil_append, List.mem_cons, List.not_mem_nil]
    tauto
  obtain ⟨horders, hfinest⟩ := reordered_after_requests (fun a b => "(" ++ a ++ " " ++ b ++ ")")
    T.source (Transcript.blind T rfl) (Transcript.multiplies T) {} {} Dissection.onGrid
    Dissection.onGrid ⟨0, 0⟩
  obtain ⟨hshape, hleaves, -⟩ := horders _ _ hunder hunder' hsame
  refine ⟨hshape, hleaves, hfinest T.source [1, 0] 1 (.refl _) (by simp) (by simp) ?_ ?_⟩
  · exact ⟨⟨"(hv0:0 hv0:0)", by cbv⟩, ⟨"(hv0:0 hv0:0)", by cbv⟩, trivial⟩
  · exact ⟨⟨"(hv0:0 hv0:0)", by cbv⟩, trivial⟩

end Cache

end SignatureCache
