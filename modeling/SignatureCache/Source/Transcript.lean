import SignatureCache.Source.Basic

/-!
# Transcripts

A source whose values are texts that record how they were built: which intervals were computed
afresh or split, in which order neighbours were combined, and, on request, how many nodes were
cached at that moment. It refuses the intervals it is told to refuse. Two queries with one
transcript have done the same work.
-/

namespace SignatureCache

/-- The settings of a recording source. -/
structure Transcript where
  /-- What starts the record of a fresh value. -/
  tag : String
  /-- The intervals whose fresh value is refused. -/
  refusedFresh : List DyadicInterval
  /-- Whether the number of cached nodes is recorded. -/
  showsNodes : Bool
  /-- The halves that a split refuses; without a list, a split halves the value instead. -/
  refusedHalves : Option (List DyadicInterval)

namespace Transcript

/-- The record of an interval, with the number of cached nodes if it is shown. -/
def record (T : Transcript) (opening : String) (nodes : Nat) (I : DyadicInterval) : String :=
  s!"{opening}{I.offset}:{I.power}" ++ if T.showsNodes then s!"@{nodes}" else ""

/-- The source that records. -/
def source (T : Transcript) : Source String where
  zero _ := "e"
  fresh nodes I :=
    if I ∈ T.refusedFresh then .error (.computation I "injected leaf")
    else .ok (T.record T.tag nodes I)
  combine _ a b
    | .left => .ok ("(" ++ a ++ " " ++ b ++ ")")
    | .right => .ok ("(" ++ b ++ " " ++ a ++ ")")
  split :=
    match T.refusedHalves with
    | none => Source.halving ("h" ++ ·)
    | some refused => fun nodes value left right =>
      if left ∈ refused then .error (.computation left "injected split")
      else if right ∈ refused then .error (.computation right "injected split")
      else .ok (T.record "l" nodes left ++ "<" ++ value, T.record "r" nodes right ++ "<" ++ value)

end Transcript

end SignatureCache
