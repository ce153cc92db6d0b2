import SignatureCache.Failure

/-!
# Activity

Counters of what a cache has done. They only ever grow, so the difference of two readings tells what
happened in between; taking it the wrong way round is a fault.
-/

namespace SignatureCache

/-- How often each kind of work was done. -/
structure Activity where
  /-- Dyadic intervals asked for, past the checks of the request. -/
  queries : Nat := 0
  /-- Queries answered by a node that was accurate enough. -/
  hits : Nat := 0
  /-- Values computed afresh by a source. -/
  freshComputations : Nat := 0
  /-- Leaves split into halves. -/
  splits : Nat := 0
  /-- Steps by which the root grew. -/
  rootExpansions : Nat := 0
  /-- Nodes added beside a growing root. -/
  neighbourNodes : Nat := 0
  /-- Values combined anew from improved halves. -/
  propagations : Nat := 0
deriving DecidableEq

namespace Activity

/-- The number of steps that changed the tree. -/
def mutations (a : Activity) : Nat :=
  a.splits + a.rootExpansions + a.propagations

/-- What one counter grew by. -/
def grown? (now earlier : Nat) : Except Fault Nat :=
  if earlier ≤ now then .ok (now - earlier) else .error .overflow

/-- What happened since an earlier reading. -/
def since? (now earlier : Activity) : Except Fault Activity := do
  return {
    queries := ← grown? now.queries earlier.queries
    hits := ← grown? now.hits earlier.hits
    freshComputations := ← grown? now.freshComputations earlier.freshComputations
    splits := ← grown? now.splits earlier.splits
    rootExpansions := ← grown? now.rootExpansions earlier.rootExpansions
    neighbourNodes := ← grown? now.neighbourNodes earlier.neighbourNodes
    propagations := ← grown? now.propagations earlier.propagations }

/-- The counters as a report shows them, one to a line. -/
def report (a : Activity) : String :=
  s!"queries: {a.queries}\n" ++
  s!"  hits: {a.hits}\n" ++
  s!"  fresh computations: {a.freshComputations}\n" ++
  s!"  splits: {a.splits}\n" ++
  s!"  root expansions: {a.rootExpansions} ({a.neighbourNodes} neighbours)\n" ++
  s!"  propagations: {a.propagations}"

/-- The counters on one line, with their names. -/
def summary (a : Activity) : String :=
  "CacheStats \x7b " ++
  s!"queries: {a.queries}, hits: {a.hits}, fresh_computations: {a.freshComputations}, " ++
  s!"splits: {a.splits}, root_expansions: {a.rootExpansions}, " ++
  s!"neighbour_nodes: {a.neighbourNodes}, propagations: {a.propagations}" ++ " \x7d"

end Activity

end SignatureCache
