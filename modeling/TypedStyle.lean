import TypedStyle.Main
import TypedStyle.Proofs.Build
import TypedStyle.Proofs.BuildCache
import TypedStyle.Proofs.BuildFreshness
import TypedStyle.Proofs.BuildHistory
import TypedStyle.Proofs.BuildRecord
import TypedStyle.Proofs.Denotation
import TypedStyle.Proofs.Disk
import TypedStyle.Proofs.FileTree
import TypedStyle.Proofs.Grammar
import TypedStyle.Proofs.ParserCompleteness
import TypedStyle.Proofs.ParserSoundness
import TypedStyle.Proofs.Place
import TypedStyle.Proofs.Relabel
import TypedStyle.Proofs.Scope
import TypedStyle.Proofs.TypeSoundness
import TypedStyle.Proofs.CheckerExactness
import TypedStyle.Proofs.SpanBounds
import TypedStyle.Proofs.Cursor
import TypedStyle.Proofs.ParserBounds
import TypedStyle.Proofs.Legible
import TypedStyle.Proofs.Layout
import TypedStyle.Proofs.NormalForm
import TypedStyle.Proofs.Recompile
import TypedStyle.Proofs.Selection
import TypedStyle.Proofs.PathParts
import TypedStyle.Proofs.ProjectPlace
import TypedStyle.Proofs.BuildOutputs
import TypedStyle.Proofs.CacheKey
import TypedStyle.Proofs.RecordCodec
import TypedStyle.Proofs.Independence
import TypedStyle.Proofs.Hoisting
import TypedStyle.Proofs.BuildInputs
import TypedStyle.Proofs.Embedding
import TypedStyle.Proofs.Overflow
import TypedStyle.Proofs.SpanIndependence
import TypedStyle.Proofs.Concatenation
import TypedStyle.Proofs.DiskLocality
import TypedStyle.Proofs.Overlay
import TypedStyle.Proofs.BuildOrder
import TypedStyle.Proofs.Stability
import TypedStyle.Proofs.Tiling
import TypedStyle.Proofs.Spacing
import TypedStyle.Proofs.Passing
import TypedStyle.Proofs.Recovery
import TypedStyle.Proofs.Branching
import TypedStyle.Proofs.Renaming
import TypedStyle.Proofs.ReadBack
import TypedStyle.Proofs.Phrases
import TypedStyle.Proofs.Unambiguous
import TypedStyle.Proofs.BuildFrame
import TypedStyle.Proofs.Rebuild
import TypedStyle.Proofs.Entries
import TypedStyle.Proofs.Lines
import TypedStyle.Proofs.ScopeHistory
