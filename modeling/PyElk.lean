import PyElk.Indexing.Assembly
import PyElk.Indexing.Atomicity
import PyElk.Indexing.Builder
import PyElk.Indexing.Canonical
import PyElk.Indexing.CanonicalOrder
import PyElk.Indexing.Codec
import PyElk.Indexing.CodecBijection
import PyElk.Indexing.Container
import PyElk.Indexing.Content
import PyElk.Indexing.Conversion
import PyElk.Indexing.EncodedSize
import PyElk.Indexing.ExactConversion
import PyElk.Indexing.ExpressionOrder
import PyElk.Indexing.FreezeOrder
import PyElk.Indexing.FreezeValid
import PyElk.Indexing.Interning
import PyElk.Indexing.Interruption
import PyElk.Indexing.Ir
import PyElk.Indexing.Merge
import PyElk.Indexing.MergeAtomicity
import PyElk.Indexing.MergeContent
import PyElk.Indexing.Mutation
import PyElk.Indexing.NormalForm
import PyElk.Indexing.NormalRows
import PyElk.Indexing.Obligations
import PyElk.Indexing.Owl
import PyElk.Indexing.PinnedFeatures
import PyElk.Indexing.Positions
import PyElk.Indexing.Query
import PyElk.Indexing.Recording
import PyElk.Indexing.RoundTrip
import PyElk.Indexing.Rows
import PyElk.Indexing.Spending
import PyElk.Indexing.StackMachine
import PyElk.Indexing.Transaction
import PyElk.Indexing.Trees
import PyElk.Indexing.Validity
import PyElk.Native.AcceptedLanguage
import PyElk.Native.AcceptedTables
import PyElk.Native.Agreement
import PyElk.Native.Canonical
import PyElk.Native.CanonicalBytes
import PyElk.Native.CanonicalComparison
import PyElk.Native.CanonicalDigest
import PyElk.Native.CanonicalForm
import PyElk.Native.CanonicalLengths
import PyElk.Native.CanonicalParsing
import PyElk.Native.CanonicalRows
import PyElk.Native.CanonicalScalars
import PyElk.Native.CanonicalTables
import PyElk.Native.Codec
import PyElk.Native.CodecAgreement
import PyElk.Native.Columns
import PyElk.Native.CompiledSegments
import PyElk.Native.CompiledViews
import PyElk.Native.Conformance
import PyElk.Native.ConsumedRoots
import PyElk.Native.DepthFirst
import PyElk.Native.Dispatch
import PyElk.Native.EntityCollection
import PyElk.Native.ExactCover
import PyElk.Native.LogicalRoots
import PyElk.Native.ModelScalars
import PyElk.Native.PrefixLengths
import PyElk.Native.Properties
import PyElk.Native.Reduction
import PyElk.Native.Resolution
import PyElk.Native.Resolver
import PyElk.Native.Saturation
import PyElk.Native.Schema
import PyElk.Native.ScopeMapping
import PyElk.Native.SectionAgreement
import PyElk.Native.SegmentCompilation
import PyElk.Native.SegmentMerge
import PyElk.Native.SegmentOpening
import PyElk.Native.SegmentOrder
import PyElk.Native.SegmentUnion
import PyElk.Native.Segments
import PyElk.Native.SelectedRoots
import PyElk.Native.SemanticFingerprints
import PyElk.Native.ValidRows
import PyElk.Native.Validation
import PyElk.Native.Views
import PyElk.Reasoning.Capacity
import PyElk.Reasoning.ChainSuffixes
import PyElk.Reasoning.ChainUniverse
import PyElk.Reasoning.ClassQuery
import PyElk.Reasoning.Compositions
import PyElk.Reasoning.ConclusionBound
import PyElk.Reasoning.Consistency
import PyElk.Reasoning.Contexts
import PyElk.Reasoning.Dispatch
import PyElk.Reasoning.EngineSchedule
import PyElk.Reasoning.Entailment
import PyElk.Reasoning.FixedPoint
import PyElk.Reasoning.Inference
import PyElk.Reasoning.LeastFixedPoint
import PyElk.Reasoning.Loading
import PyElk.Reasoning.NonInterference
import PyElk.Reasoning.Overlay
import PyElk.Reasoning.Properties
import PyElk.Reasoning.PropertyClosure
import PyElk.Reasoning.PropertyExact
import PyElk.Reasoning.PropertySpec
import PyElk.Reasoning.QueryAnswers
import PyElk.Reasoning.QueryContexts
import PyElk.Reasoning.QueryEngine
import PyElk.Reasoning.QueryStrict
import PyElk.Reasoning.Quotient
import PyElk.Reasoning.RawTaxonomy
import PyElk.Reasoning.Realization
import PyElk.Reasoning.RealizationCollapse
import PyElk.Reasoning.RealizationExact
import PyElk.Reasoning.Recovery
import PyElk.Reasoning.RecoveryInvariant
import PyElk.Reasoning.Reduction
import PyElk.Reasoning.Refusal
import PyElk.Reasoning.Remapping
import PyElk.Reasoning.Resumption
import PyElk.Reasoning.Rules
import PyElk.Reasoning.Saturated
import PyElk.Reasoning.Saturation
import PyElk.Reasoning.Schedule
import PyElk.Reasoning.Session
import PyElk.Reasoning.Snapshot
import PyElk.Reasoning.StrictSupers
import PyElk.Reasoning.Taxonomy
import PyElk.Reasoning.TaxonomyOrder
import PyElk.Reasoning.TaxonomyTotal
import PyElk.Semantics.Conversion
import PyElk.Semantics.Entailment
import PyElk.Semantics.Interpretation
import PyElk.Semantics.Overlay
import PyElk.Semantics.Properties
import PyElk.Semantics.Soundness
import PyElk.Semantics.Taxonomy
import PyElk.Support.BitRow
import PyElk.Support.Blake2b
import PyElk.Support.Bytes
import PyElk.Support.Components
import PyElk.Support.Csr
import PyElk.Support.Merging
import PyElk.Support.Metered
import PyElk.Support.Ordered
import PyElk.Support.Overlays
import PyElk.Support.Raising
import PyElk.Support.Reduction
import PyElk.Support.Topological
import PyElk.Support.UnionFind
import PyElk.Support.Varint
import PyElk.Support.Worklist
