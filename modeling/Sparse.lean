import Sparse.LinearIr
import Sparse.PointerList
import Sparse.UseLists
import Sparse.AdjacencyLists
import Sparse.FlowGraph
import Sparse.FlowGraphInvariant
import Sparse.FlowGraphDeletion
import Sparse.FlowGraphReachability
import Sparse.FlowGraphPacking
import Sparse.FlowGraphRuns
import Sparse.OperandRewrites
import Sparse.UseListInvariant
import Sparse.UseListKills
import Sparse.UseListRewrites
import Sparse.UseListPhis
import Sparse.UseListRuns
import Sparse.StutterSimulation
import Sparse.Statements
import Sparse.Linearize
import Sparse.LinearizedCode
import Sparse.LinearizedSwitch
import Sparse.LinearizedRuns
import Sparse.LinearizedSimulation
import Sparse.LinearizeGrowth
import Sparse.LinearizeCode
import Sparse.LinearizedFunction
import Sparse.StableIteration
import Sparse.Liveness
import Sparse.LivenessEvents
import Sparse.LivenessFixpoint
import Sparse.MaskedWords
import Sparse.ConstantFolders
import Sparse.FolderAgreement
import Sparse.ConstantExpressions
import Sparse.ExpandExpressions
import Sparse.ConstantMeaning
import Sparse.ExpandSoundness
import Sparse.EvaluateSoundness
import Sparse.ConditionalGroups
import Sparse.Conditionals
import Sparse.ConditionalTracking
import Sparse.ConditionalRuns
import Sparse.IncludeGuards
import Sparse.IncludeGuardRuns
import Sparse.CircularChain
import Sparse.PtrListBlocks
import Sparse.PtrListSequences
import Sparse.PtrListOperations
import Sparse.PtrListEntries
import Sparse.PtrListRuns
import Sparse.LabelPropagation
import Sparse.ContextBalance
import Sparse.StableSorting
import Sparse.CharacterInput
import Sparse.Scopes
import Sparse.ScopeChains
import Sparse.ScopeRuns
import Sparse.SequentialPlacement
import Sparse.StructLayout
import Sparse.StructLayoutSoundness
import Sparse.LabelJoining
import Sparse.Storage
import Sparse.StorageLinks
import Sparse.StorageRuns
import Sparse.StorageConflicts
import Sparse.CompoundAssignment
import Sparse.CompoundAssignmentValues
import Sparse.CompoundAssignmentAgreement
import Sparse.CompoundDivision
import Sparse.CompoundShift
import Sparse.CompoundConditions
import Sparse.BitFields
import Sparse.BitFieldAccesses
import Sparse.BitFieldOperations
import Sparse.InstructionValues
import Sparse.OneConstantRewrites
import Sparse.HostTraps
import Sparse.CastSimplification
import Sparse.BitFieldConditions
import Sparse.SwitchDispatch
import Sparse.BranchRewrites
import Sparse.ValueChains
import Sparse.AddressFolding
import Sparse.CseComparison
import Sparse.Reassociation
import Sparse.TerminatedArrays
import Sparse.IncludePaths
import Sparse.MacroStrength
import Sparse.ProvenanceChains
import Sparse.Tokenizer
import Sparse.StringRoundTrip
import Sparse.LongestMatch
import Sparse.TokenGrammar
import Sparse.TokenScanners
import Sparse.LongestTokens
import Sparse.TokenizedStreams
import Sparse.LosslessTokens
import Sparse.ExpressionParser
import Sparse.MacroTokens
import Sparse.MacroSubstitution
import Sparse.MacroExpansion
import Sparse.MacroRecords
import Sparse.ExpressionTrees
import Sparse.ExpressionRanks
import Sparse.ExpressionRoundTrip
import Sparse.DepthFirstWalks
import Sparse.DominatorSearch
import Sparse.ProgramPaths
import Sparse.Executions
import Sparse.IfConversion
import Sparse.WrappedIntervals
import Sparse.MemoryOverlap
import Sparse.ArrayDesignators
import Sparse.ArraySizes
import Sparse.PointerArithmetic
import Sparse.EnumTypes
import Sparse.PtrListReverse
import Sparse.DeathNotes
import Sparse.InitializerTrees
import Sparse.InitializerStores
import Sparse.InitializerCounts
import Sparse.ImpliedCasts
import Sparse.HashedInterning
import Sparse.Identifiers
import Sparse.EscapeSequences
import Sparse.SharedStrings
import Sparse.SoleTokens
import Sparse.PastedWords
import Sparse.TokenPasting
import Sparse.ArgumentCollection
import Sparse.Stringizing
import Sparse.FloatingConstants
import Sparse.ExpandedPaths
import Sparse.UnssaExecutions
import Sparse.ListSorting
import Sparse.CommonSubexpressions
import Sparse.HoistedInstructions
import Sparse.SilentInstructions
import Sparse.CsePlacement
import Sparse.CseExecutions
import Sparse.CsePhis
import Sparse.CseBuckets
import Sparse.ReshapedPaths
import Sparse.PrunedExecutions
import Sparse.SilentKills
import Sparse.PackedExecutions
import Sparse.BlobAllocator
