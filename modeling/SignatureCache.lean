import SignatureCache.Main
import SignatureCache.Source.Transcript
import SignatureCache.Tree.Lemmas
import SignatureCache.Proofs.DyadicInterval.Nesting
import SignatureCache.Proofs.DyadicInterval.Span
import SignatureCache.Proofs.DyadicInterval.Tiling
import SignatureCache.Proofs.Tree.Full
import SignatureCache.Proofs.Tree.Edits
import SignatureCache.Proofs.Cache.Work
import SignatureCache.Proofs.Tree.Accuracy
import SignatureCache.Proofs.Tree.Modest
import SignatureCache.Proofs.Cache.Propagation
import SignatureCache.Proofs.Cache.Moves
import SignatureCache.Proofs.Cache.Phases
import SignatureCache.Proofs.Cache.Requests
import SignatureCache.Proofs.Cache.Invariants
import SignatureCache.Proofs.DyadicInterval.Following
import SignatureCache.Proofs.Tree.Walk
import SignatureCache.Proofs.Cache.Steady
import SignatureCache.Proofs.Cache.Tour
import SignatureCache.Proofs.Cache.Range
import SignatureCache.Proofs.Cache.Sharpening
import SignatureCache.Proofs.Cache.Service
import SignatureCache.Proofs.Cache.Values
import SignatureCache.Proofs.Tree.Freshness
import SignatureCache.Proofs.Cache.Freshness
import SignatureCache.Proofs.Cache.Skipping
import SignatureCache.Proofs.Cache.Shape
import SignatureCache.Proofs.Cache.Mirroring
import SignatureCache.Proofs.Cache.Resumption
import SignatureCache.Proofs.Cache.Deeds
import SignatureCache.Proofs.Cache.Provenance
import SignatureCache.Proofs.Cache.Reordering
import SignatureCache.Proofs.Cache.Coherence
import SignatureCache.Proofs.Cache.Isolation
import SignatureCache.Proofs.Cache.Growth
import SignatureCache.Proofs.Cache.Repetition
import SignatureCache.Proofs.Cache.Steps
import SignatureCache.Proofs.Tree.Missing
import SignatureCache.Proofs.Cache.Splitting
import SignatureCache.Proofs.Cache.Improvement
import SignatureCache.Proofs.Tree.Census
import SignatureCache.Proofs.Cache.Accounting
import SignatureCache.Proofs.Cover
import SignatureCache.Proofs.Cache.Errors
import SignatureCache.Proofs.Cache.Grid
import SignatureCache.Proofs.LieElement.Product
import SignatureCache.Proofs.LieElement.Brackets
import SignatureCache.Proofs.Path.Selection
import SignatureCache.Proofs.Path.HalfOpen
import SignatureCache.Proofs.Path.Source
import SignatureCache.Proofs.Path.Table
import SignatureCache.Proofs.Number.Words
import SignatureCache.Proofs.DyadicInterval.KeyOrder
import SignatureCache.Proofs.Cache.Offsets
import SignatureCache.Proofs.Tree.Under
import SignatureCache.Proofs.Tree.Cursor
import SignatureCache.Proofs.Tree.Fingerprint
import SignatureCache.Proofs.Cover.Maximal
import SignatureCache.Proofs.Cover.Words
import SignatureCache.Proofs.Number.Rounding
import SignatureCache.Proofs.Number.Exact
import SignatureCache.Proofs.Cover.Canonical
import SignatureCache.Proofs.DyadicInterval.Overflow
import SignatureCache.Proofs.DyadicInterval.Far
import SignatureCache.Proofs.Tree.KeyIndex
import SignatureCache.Proofs.Cache.Shelves
import SignatureCache.Proofs.Cache.Nearness
