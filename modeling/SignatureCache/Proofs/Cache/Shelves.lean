import SignatureCache.Proofs.Cache.Mirroring
import SignatureCache.Proofs.DyadicInterval.Far

/-!
# Caches on a shelf

A cache that compares keys in words does what a cache with exact comparisons does, up to the first
query that ends because two intervals could not be compared. So what is proved of trees on their own
holds on every shelf up to there: each answer is the same, and so are the tree and the counters that
are left. Which comparisons overflow is known: only those between an interval and its ancestor 63
levels up, and between powers whose difference is no word.
-/

namespace SignatureCache

open DyadicInterval

variable {V τ α : Type} [Shelf V τ]

/-- Whether the failure is that two intervals could not be compared. -/
def Failure.incomparable : Failure → Bool
  | .fault (.incomparable I J) => !((I.compare? J).toBool && (I.contains? J).toBool)
  | _ => false

theorem Failure.far_of_incomparable {failure : Failure} (h : failure.incomparable = true) :
    ∃ I J, Far I J ∧ failure = .fault (.incomparable I J) := by
  unfold incomparable at h
  split at h
  · next I J =>
    refine ⟨I, J, ?_, rfl⟩
    cases hcompare : I.compare? J with
    | error cause => exact far_of_compare? hcompare
    | ok order =>
      cases hcontains : I.contains? J with
      | error cause => exact far_of_contains? hcontains
      | ok inside => simp [hcompare, hcontains, Except.toBool] at h
  · cases h

instance : Shelf.Excused τ fun failure => failure.incomparable = true where
  search h := by
    obtain ⟨other, -, hcompare, rfl⟩ := Shelf.search_fault h
    simp [Failure.incomparable, hcompare, Except.toBool]
  test h := by
    obtain ⟨hcontains, rfl⟩ := Shelf.test_fault h
    simp [Failure.incomparable, hcontains, Except.toBool]

namespace Work

/-- Whether the work ends because two intervals could not be compared. -/
def breaksOff (x : WorkOn V τ α) (s : Store V τ) : Bool :=
  match x s with
  | .ok _ _ => false
  | .error failure _ => failure.incomparable

/-- How the work ends, with the tree taken off the shelf. -/
def outcome (x : WorkOn V τ α) (s : Store V τ) : EStateM.Result Failure (Store V) α :=
  match x s with
  | .ok a s' => .ok a s'.plain
  | .error failure s' => .error failure s'.plain

variable {x' : WorkOn V τ α} {x : Work V α} {s : Store V τ}

/-- Work on a shelf ends as it does with the tree on its own, unless it breaks off. -/
theorem Mirrors.outcome_eq (h : Mirrors 0 (fun failure => failure.incomparable = true) x' x)
    (hs : breaksOff x' s = false) : outcome x' s = x s.plain := by
  rw [breaksOff] at hs
  rw [outcome]
  cases hrun : x' s with
  | ok a s' => exact (h.ok hrun).symm
  | error failure s' =>
    rw [hrun] at hs
    exact (h.error hrun (Bool.eq_false_iff.1 hs)).symm

end Work

namespace Cache

open Work

/-- The cache with its tree taken off the shelf. -/
def plain (cache : Cache V τ) : Cache V where
  policy := cache.policy
  dissection := cache.dissection
  store := cache.store.plain

/-- The answer to a request and the cache it leaves, with the tree taken off the shelf. -/
def outcome (cache : Cache V τ) (request : Request V) : Except Failure V × Cache V :=
  let next := cache.answer request.source request.query request.resolution
  (next.1, next.2.plain)

/-- Whether the request ends because two intervals could not be compared. -/
def breaksOff (cache : Cache V τ) (request : Request V) : Bool :=
  match (cache.answer request.source request.query request.resolution).1 with
  | .ok _ => false
  | .error failure => failure.incomparable

/-- Whether no request ends because two intervals could not be compared. -/
def compares (cache : Cache V τ) : List (Request V) → Bool
  | [] => true
  | request :: requests => !cache.breaksOff request &&
    (cache.answer request.source request.query request.resolution).2.compares requests

variable {cache : Cache V τ} {request : Request V} {requests : List (Request V)}

@[simp] theorem plain_policy (cache : Cache V τ) : cache.plain.policy = cache.policy := rfl

@[simp] theorem plain_dissection (cache : Cache V τ) :
    cache.plain.dissection = cache.dissection := rfl

theorem plain_new (policy : Policy) (dissection : Dissection) :
    ({ policy, dissection } : Cache V τ).plain = { policy, dissection } := by
  rw [plain, Store.plain, Shelf.tree_empty]
  rfl

/-- A request breaks off where the work for it does. -/
theorem breaksOff_eq : cache.breaksOff request =
    Work.breaksOff (Work.answer cache.policy cache.dissection request.source request.query
      request.resolution) cache.store := by
  rw [Work.breaksOff]
  cases hrun : (Work.answer cache.policy cache.dissection request.source request.query
      request.resolution : WorkOn V τ V) cache.store with
  | ok value s => rw [breaksOff, answer_of_ok _ hrun]
  | error failure s => rw [breaksOff, answer_of_error _ hrun]

/-- A request on a shelf has the outcome that it has with the tree on its own, unless it breaks
off. -/
theorem outcome_eq (h : cache.breaksOff request = false) :
    cache.outcome request =
      cache.plain.answer request.source request.query request.resolution := by
  obtain ⟨source, query, resolution⟩ := request
  have hwork : Work.outcome (Work.answer cache.policy cache.dissection source query resolution)
      cache.store =
        Work.answer cache.policy cache.dissection source query resolution cache.store.plain :=
    Mirrors.outcome_eq (Mirrors.answer _ _ source query resolution) (breaksOff_eq.symm.trans h)
  rw [Work.outcome] at hwork
  cases hrun : (Work.answer cache.policy cache.dissection source query resolution : WorkOn V τ V)
      cache.store with
  | ok value s =>
    rw [hrun] at hwork
    have hplain : cache.plain.answer source query resolution =
        (.ok value, { cache.plain with store := s.plain }) := answer_of_ok query hwork.symm
    rw [hplain, outcome, answer_of_ok query hrun]
    rfl
  | error failure s =>
    rw [hrun] at hwork
    have hplain : cache.plain.answer source query resolution =
        (.error failure, { cache.plain with store := s.plain }) :=
      answer_of_error query hwork.symm
    rw [hplain, outcome, answer_of_error query hrun]
    rfl

/-- A request only breaks off at two intervals that are far apart. -/
theorem far_of_breaksOff (h : cache.breaksOff request = true) :
    ∃ I J, Far I J ∧ (cache.outcome request).1 = .error (.fault (.incomparable I J)) := by
  rw [breaksOff] at h
  split at h
  · cases h
  · next failure hresult =>
    obtain ⟨I, J, hfar, rfl⟩ := Failure.far_of_incomparable h
    exact ⟨I, J, hfar, hresult⟩

theorem compares_cons : cache.compares (request :: requests) = true ↔
    cache.breaksOff request = false ∧
      (cache.answer request.source request.query request.resolution).2.compares requests =
        true := by
  rw [compares, Bool.and_eq_true, Bool.not_eq_true']

theorem compares_append {later : List (Request V)} : cache.compares (requests ++ later) = true ↔
    cache.compares requests = true ∧ (cache.after requests).compares later = true := by
  induction requests generalizing cache with
  | nil => simp [compares, after]
  | cons request requests ih => rw [List.cons_append, compares_cons, ih, compares_cons, after_cons,
      and_assoc]

/-- Requests on a shelf leave the cache that they leave with the tree on its own, as long as none
breaks off. -/
theorem plain_after (h : cache.compares requests = true) :
    (cache.after requests).plain = cache.plain.after requests := by
  induction requests generalizing cache with
  | nil => rfl
  | cons request requests ih =>
    obtain ⟨hfirst, hrest⟩ := compares_cons.1 h
    rw [after_cons, after_cons, ih hrest, ← outcome_eq hfirst]
    rfl

end Cache

end SignatureCache
