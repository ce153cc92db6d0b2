import SignatureCache.Failure

/-!
# Policies

What a cache allows and how it walks: the finest resolution a query may ask for, and whether parts
of the tree that are accurate enough are passed in one step.
-/

namespace SignatureCache

/-- The settings of a cache. -/
structure Policy where
  maxResolution : Int := 32
  skipAccurate : Bool := true
deriving DecidableEq

namespace Policy

/-- The finest resolution at which grid points are still exact doubles. -/
def finestResolution : Int := 52

/-- The policy with another limit; limits are between 0 and `finestResolution`. -/
def withMaxResolution? (policy : Policy) (resolution : Int) : Except Error Policy :=
  if 0 ≤ resolution ∧ resolution ≤ finestResolution then
    .ok { policy with maxResolution := resolution }
  else .error (.maxResolution resolution finestResolution)

/-- The settings on one line, with their names. -/
def summary (policy : Policy) : String :=
  "StreamConfig \x7b " ++
  s!"max_resolution: {policy.maxResolution}, skip_accurate_subtrees: {policy.skipAccurate}" ++
  " \x7d"

end Policy

end SignatureCache
