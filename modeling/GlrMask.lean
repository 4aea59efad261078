import GlrMask.RangeMap
import GlrMask.RangeMapOps
import GlrMask.RangeMapJoin
import GlrMask.RangeSet
import GlrMask.TokenSets
import GlrMask.WeightBuilder
import GlrMask.WeightUnion
import GlrMask.WeightSweep
import GlrMask.WeightDifference
import GlrMask.WeightIntersection
import GlrMask.Weight
import GlrMask.SortedMap
import GlrMask.WeightUnionAll
import GlrMask.WeightPoints
import GlrMask.TopologicalSort
import GlrMask.Fuel
import GlrMask.Residual
import GlrMask.Nfa
import GlrMask.DefaultNodes
import GlrMask.DefaultBuilder
import GlrMask.DefaultDeterminize
import GlrMask.DefaultMaterialize
import GlrMask.BreadthFirst
import GlrMask.Dwa
import GlrMask.Nwa
import GlrMask.BoundaryWeights
import GlrMask.Equivalence
import GlrMask.PrefixTree
import GlrMask.PrefixTreeLookup
import GlrMask.PrefixTreeBuild
import GlrMask.SignedGraph
import GlrMask.DerivedRows
import GlrMask.Cancellation
import GlrMask.CancellationQuery
import GlrMask.CancellationSummary
import GlrMask.Slots
import GlrMask.GssLower
import GlrMask.GssUpper
import GlrMask.GssApply
import GlrMask.GssPrune
import GlrMask.GssPartition
import GlrMask.LeveledGss
import GlrMask.GssHeads
import GlrMask.FrontierKeys
import GlrMask.FrontierKeyRuns
import GlrMask.GssEquality
import GlrMask.SemanticTrie
import GlrMask.SemanticKeys
import GlrMask.SemanticUnions
import GlrMask.SemanticKeyRoutes
import GlrMask.SemanticKeySearch
import GlrMask.SemanticKeyRuns
import GlrMask.NwaSupport
import GlrMask.BatchSearch
import GlrMask.ParserMask
import GlrMask.ParserEquivalence
import GlrMask.ParserComparison
import GlrMask.ByteReader
import GlrMask.WeightPool
import GlrMask.WeightPoolCodec
import GlrMask.WeightPoolRoundTrip
import GlrMask.RuntimeWeightPool
import GlrMask.WordBitmap
import GlrMask.BitScan
import GlrMask.MaskMapping
import GlrMask.MaskMappingOps
import GlrMask.MaskMappingTables
import GlrMask.MaskMappingGroups
import GlrMask.MaskMappingWrites
import GlrMask.MaskMappingSelections
import GlrMask.MaskMappingIds
import GlrMask.MaskMappingProfile
import GlrMask.MaskMappingExact
import GlrMask.RunOverlay
import GlrMask.PointwiseRegions
import GlrMask.PointwiseProfiles
import GlrMask.PointwiseRows
import GlrMask.PointwiseCursors
import GlrMask.PointwiseSweeps
import GlrMask.FirstFit
import GlrMask.PointwiseGroups
import GlrMask.PointwiseBuilders
import GlrMask.PointwiseColoring
import GlrMask.AcyclicHeights
import GlrMask.WeightedBuckets
import GlrMask.PointwiseBuckets
import GlrMask.Exploration
import GlrMask.UnweightedDfa
import GlrMask.Subtract
import GlrMask.EpsilonClosure
import GlrMask.Determinize
import GlrMask.Interning
import GlrMask.PartitionRefinement
import GlrMask.MinimalDfa
import GlrMask.MinimizeCyclic
import GlrMask.DepthFirst
import GlrMask.MinimizeAcyclic
import GlrMask.MinimizeTwice
import GlrMask.WeightBulkUnion
import GlrMask.Regex
import GlrMask.DecimalText
import GlrMask.IntegerRange
import GlrMask.IntegerBounds
import GlrMask.SharedIntegerAtoms
import GlrMask.IntegerPartition
import GlrMask.IntegerModulo
import GlrMask.DecimalFraction
import GlrMask.DecimalMultiple
import GlrMask.FloatRange
import GlrMask.FloatFractions
import GlrMask.FloatParts
import GlrMask.FloatMatched
import GlrMask.FloatNonInteger
import GlrMask.FloatExact
import GlrMask.FloatRangeCorrect
import GlrMask.LexerExpr
import GlrMask.LexerOptimize
import GlrMask.ListedMap
import GlrMask.Vectors
import GlrMask.SparseRow
import GlrMask.SparseRowSpec
import GlrMask.ActionRow
import GlrMask.ActionRowSpec
import GlrMask.RowRefinement
import GlrMask.TerminalsDisallowed
import GlrMask.TerminalsDisallowedRows
import GlrMask.TerminalsDisallowedSets
import GlrMask.TerminalsDisallowedValues
import GlrMask.UnitRepeat
import GlrMask.UnitRepeatRuntime
import GlrMask.UnitRepeatProjection
import GlrMask.UnitRepeatFibres
import GlrMask.UnitRepeatMask
import GlrMask.StackSearch
import GlrMask.TokenizerScan
import GlrMask.PossibleMatches
import GlrMask.PossibleMatchMaps
import GlrMask.PossibleMatchesExact
import GlrMask.PossibleMatchesTree
import GlrMask.PossibleMatchesScan
import GlrMask.ContextFree
import GlrMask.GrammarRules
import GlrMask.SingleProductions
import GlrMask.CondensationDepths
import GlrMask.MergeIdentical
import GlrMask.MergeIdenticalClasses
import GlrMask.MergeIdenticalWords
import GlrMask.OrdinaryMatch
import GlrMask.TrimUnreachable
import GlrMask.FinalLeafTargets
import GlrMask.WeightPoolListings
import GlrMask.WeightPoolUntrusted
import GlrMask.GssFuse
import GlrMask.DenseMaskAcc
import GlrMask.MaskQueue
import GlrMask.GssPush
import GlrMask.PushGraph
import GlrMask.PushSuffixes
import GlrMask.UnstableSort
import GlrMask.PushDag
import GlrMask.StronglyConnected
import GlrMask.ContextFreeComparison
import GlrMask.LeftCornerClosure
import GlrMask.ClauseCounting
import GlrMask.ContextFreeEmptyWord
import GlrMask.Nullability
import GlrMask.DedupRules
import GlrMask.NullableRuns
import GlrMask.NullableTrees
import GlrMask.NullProductions
import GlrMask.LeftCornerRepair
import GlrMask.BoundaryGraph
