import Projector.Lib.Sorting
import Projector.Lib.KWayMerge
import Projector.Lib.LeastHead
import Projector.Lib.UnionMerge
import Projector.Lib.SubsetScan
import Projector.Lib.LowerBound
import Projector.Lib.Shared
import Projector.Lib.Effects
import Projector.Lib.Bytes
import Projector.Edge
import Projector.Lib.Generator
import Projector.Lib.Dict
import Projector.Lib.Worklist
import Projector.Lib.Runs
import Projector.Lib.Tiling
import Projector.Lib.TreeCode
import Projector.Lib.ByteStream
import Projector.Lib.VarintGroups
import Projector.Lib.HeapSort
import Projector.Lib.Phases
import Projector.Lib.Numbering
import Projector.Lib.Tally
import Projector.Lib.Retain
import Projector.Lib.TreeRelabel
import Projector.Core.Node
import Projector.Core.Canonical
import Projector.Core.Occurrence
import Projector.Compiler.Hashing
import Projector.Compiler.RoleState
import Projector.Compiler.Compilation
import Projector.Compiler.ScanProofs
import Projector.Compiler.Stable
import Projector.Compiler.LazyEager
import Projector.Compiler.OrderIndependence
import Projector.Streaming.World
import Projector.Streaming.Runs
import Projector.Streaming.Policy
import Projector.Streaming.RunProofs
import Projector.Streaming.MergeProofs
import Projector.Streaming.CanonicalProofs
import Projector.Streaming.ExternalSort
import Projector.Streaming.EncounterIndex
import Projector.Streaming.RunCodec
import Projector.Streaming.Feeding
import Projector.Streaming.Accounting
import Projector.Encoded.Columns
import Projector.Encoded.Inspect
import Projector.Encoded.Preflight
import Projector.Encoded.Projection
import Projector.Encoded.Compilation
import Projector.Encoded.Table
import Projector.Encoded.Shapes
import Projector.Encoded.AxiomShapes
import Projector.Encoded.SequenceFields
import Projector.Encoded.ProjectionProofs
import Projector.Encoded.RootProofs
import Projector.Encoded.RootGroups
import Projector.Encoded.RootMerge
import Projector.Encoded.Validation
import Projector.Encoded.ValidationProofs
import Projector.Encoded.SafeReads
import Projector.Encoded.SafeView
import Projector.Encoded.CanonicalCursor
import Projector.Encoded.CanonicalTerms
import Projector.Encoded.CanonicalLengths
import Projector.Encoded.NodeLength
import Projector.Encoded.CanonicalStream
import Projector.Encoded.CanonicalGround
import Projector.Encoded.CanonicalCode
import Projector.Native.LifeCycle
import Projector.Native.LifeCycleProofs
import Projector.Native.RoleCommit
import Projector.Native.BatchSession
import Projector.Native.BatchSessionProofs
import Projector.Native.ExactStream
import Projector.Native.CanonicalBytes
import Projector.Native.IntegerGroups
import Projector.Native.Metered
import Projector.Native.Components
import Projector.Native.LengthTable
import Projector.Native.BuiltTable
import Projector.Native.ByteCursor
import Projector.Native.ScopeSearch
import Projector.Native.CanonicalCode
import Projector.Native.Rendering
import Projector.Artifact.Json
import Projector.Artifact.Payload
import Projector.Artifact.Writer
import Projector.Artifact.PayloadProofs
import Projector.Artifact.WriterProofs
import Projector.Artifact.Published
import Projector.Artifact.Atomic
import Projector.Artifact.EdgeArtifact
import Projector.Native.Hashing
import Projector.Compiler.RoleAxioms
import Projector.Encoded.RoleReads
import Projector.Encoded.RolePreparation
import Projector.Native.Reads
import Projector.Native.ReadProofs
import Projector.Native.RoleRows
import Projector.Native.Sorting
import Projector.Native.RoleState
import Projector.Encoded.TableCheck
import Projector.Encoded.ReadCells
import Projector.Encoded.ScopeRemap
import Projector.Encoded.ScopeOrder
import Projector.Encoded.ReachableOrder
import Projector.Encoded.Occurrences
import Projector.Encoded.ReachedNames
import Projector.Encoded.AssertionProofs
import Projector.Encoded.RootCategories
import Projector.Encoded.IndexProofs
import Projector.Encoded.RoleAgreement
import Projector.Encoded.Preparation
import Projector.Encoded.Together
import Projector.Encoded.PassAgreement
import Projector.Encoded.ScalarAgreement
import Projector.Encoded.ScopePreserved
import Projector.Encoded.StoredPieces
import Projector.Native.RootSelection
import Projector.Encoded.ResolvedGroups
import Projector.Encoded.LeafRows
import Projector.Native.ScopeChains
import Projector.Native.RootCursor
import Projector.Native.StructuralEquality
import Projector.Native.RootAnnotations
import Projector.Streaming.Reduction
import Projector.Native.EdgeEngine
import Projector.Native.EdgeEngineProofs
import Projector.Delivery.Sink
import Projector.Delivery.SinkProofs
import Projector.Lib.ColourWalk
import Projector.Encoded.NodeGraph
import Projector.Native.GraphValidators
import Projector.Native.GraphDecisions
import Projector.Encoded.TaxonomyAgreement
import Projector.Native.GenericChecks
import Projector.Native.LengthBuilder
import Projector.Native.CanonicalMerge
import Projector.Native.MergedRoots
import Projector.Native.RootUnion
import Projector.Lib.HeadMerge
import Projector.Encoded.NodeMerge
import Projector.Native.AnonymousPositions
