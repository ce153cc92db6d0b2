import SignatureCache.DyadicInterval.Endpoint

/-!
# Errors and faults

A query ends without an answer in two ways. An *error* is the caller's: the interval, the resolution
or the data cannot be served, or a source of increments refuses. A *fault* is a broken assumption of
the tree itself, such as a second node for one key; the queries of an empty cache never meet one as
long as increments can be combined, but the tree's own operations can be called so that they do.
Each cause is a constructor, and its wording is written once.
-/

namespace SignatureCache

/-- Why data make no path. -/
inductive PathError where
  | zeroWidth
  | depth (found : Nat)
  | valueCount (increments width found : Nat)
  | nonFinite (parameter : String)
  | decreasing
deriving DecidableEq

/-- The error's text. -/
def PathError.message : PathError → String
  | .zeroWidth => "width must be > 0"
  | .depth found => s!"unsupported depth {found} (expected 1 or 2)"
  | .valueCount increments width found =>
    s!"expected {increments * width} values for {increments} increments of width {width}, " ++
      s!"got {found}"
  | .nonFinite parameter => s!"non-finite parameter {parameter}"
  | .decreasing => "parameters must be non-decreasing"

/-- Why a request is refused. -/
inductive Error where
  /-- The ends are out of order, or one is no number. -/
  | invalidInterval (start stop : Float)
  | resolutionTooFine (requested limit : Int)
  | offsetOutOfRange (interval : DyadicInterval) (resolution : Int)
  /-- The root and the interval lie on two sides of zero. -/
  | rootUnreachable (root target : DyadicInterval)
  | dissection (reason : String)
  | computation (interval : DyadicInterval) (reason : String)
  | maxResolution (requested greatest : Int)
  | path (cause : PathError)

/-- The error's text. -/
def Error.message : Error → String
  | .invalidInterval start stop =>
    "invalid interval [" ++ Decimal.text start ++ ", " ++ Decimal.text stop ++ ")"
  | .resolutionTooFine requested limit =>
    s!"resolution {requested} exceeds configured maximum {limit}"
  | .offsetOutOfRange interval resolution =>
    s!"{interval.text} at resolution {resolution} reaches offsets beyond 2^52"
  | .rootUnreachable root target =>
    s!"root {root.text} can never contain {target.text}: they lie on opposite sides of zero"
  | .dissection reason => "dissection failed: " ++ reason
  | .computation interval reason =>
    s!"increment computation failed for {interval.text}: {reason}"
  | .maxResolution requested greatest =>
    s!"invalid stream configuration: max resolution {requested} outside 0..={greatest}"
  | .path cause => "invalid path data: " ++ cause.message

/-- A broken assumption of the cache. -/
inductive Fault where
  /-- A number left the word that holds it. -/
  | overflow
  /-- The comparison of two intervals left its word. -/
  | incomparable (I J : DyadicInterval)
  | offsetOverflow (interval : DyadicInterval)
  | duplicateNode (key : DyadicInterval)
  | cannotLink (left right parent : DyadicInterval)
  | linkMissing (key : DyadicInterval)
  | accuracyRegression (old new : Int)
  | unsupportedDepth
  | widthMismatch
  | depthMismatch
  | letterMissing
  | splitNonLeaf (key : DyadicInterval)
  | splitMissing (key : DyadicInterval)
  | cursorMissing (key : DyadicInterval)
  | rootMissing (key : DyadicInterval)
  | nodeMissing (key : DyadicInterval)
  | siblingUnknown (key : DyadicInterval)
  | siblingMissing (key sibling : DyadicInterval)
  | parentMissing (key parent : DyadicInterval)
  | stoppedShort (key : DyadicInterval) (desired : Int)
  /-- Work from a key on took more steps than there are places to go. -/
  | endless (key : DyadicInterval)
deriving DecidableEq

/-- The fault's text; an overflow has none of its own. -/
def Fault.message : Fault → String
  | .overflow | .incomparable .. => ""
  | .offsetOverflow interval =>
    "offset overflow shrinking DyadicInterval \x7b offset: " ++
      s!"{interval.offset}, power: {interval.power} \x7d"
  | .duplicateNode key => s!"duplicate cache node for {key.text}"
  | .cannotLink left right parent =>
    s!"cannot link {left.text} and {right.text} under {parent.text}"
  | .linkMissing key => s!"linking missing cache node {key.text}"
  | .accuracyRegression old new => s!"accuracy regression: {old} -> {new}"
  | .unsupportedDepth => "supported depths are 1 and 2"
  | .widthMismatch => "width mismatch in BCH product"
  | .depthMismatch => "depth mismatch in BCH product"
  | .letterMissing => "assertion failed: i < j && j < self.width"
  | .splitNonLeaf key => s!"split of non-leaf {key.text}"
  | .splitMissing key => s!"split of missing cache node {key.text}"
  | .cursorMissing key => s!"cursor on missing cache node {key.text}"
  | .rootMissing key => s!"missing root node {key.text}"
  | .nodeMissing key => s!"missing cache node {key.text}"
  | .siblingUnknown key => s!"{key.text} has a parent but no sibling"
  | .siblingMissing key sibling => s!"dangling sibling link {key.text} -> {sibling.text}"
  | .parentMissing key parent => s!"dangling parent link {key.text} -> {parent.text}"
  | .stoppedShort key desired => s!"refinement of {key.text} stopped short of {desired}"
  | .endless key => s!"work from {key.text} on came to no end"

/-- Either way of ending without an answer. -/
inductive Failure where
  | error (cause : Error)
  | fault (cause : Fault)

end SignatureCache
