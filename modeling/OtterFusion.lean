import OtterFusion.Base.Runs
import OtterFusion.Runtime.Common
import OtterFusion.Runtime.SharedLock
import OtterFusion.Runtime.SharedFifo
import OtterFusion.Runtime.SharedWakeups
import OtterFusion.Runtime.Channel
import OtterFusion.Runtime.ChannelPins
import OtterFusion.Runtime.ChannelWakeups
import OtterFusion.Runtime.Executor
import OtterFusion.Runtime.ExecutorWakeups
import OtterFusion.Base.Marking
import OtterFusion.Runtime.Heap
import OtterFusion.Runtime.Collect
import OtterFusion.Runtime.CollectExact
import OtterFusion.Runtime.Finalization
import OtterFusion.Runtime.DestroyedOnce
import OtterFusion.Runtime.FinalizationSafety
import OtterFusion.Base.Outcome
import OtterFusion.Pkg.Package
import OtterFusion.Pkg.Resolve
import OtterFusion.Pkg.ResolveRequirements
import OtterFusion.Base.KeyedMaps
import OtterFusion.Base.Probing
import OtterFusion.Runtime.Map
import OtterFusion.Runtime.MapRefines
import OtterFusion.Runtime.TaskCompletion
import OtterFusion.Runtime.CompletesOnce
import OtterFusion.Runtime.ResultHandoff
import OtterFusion.Runtime.ResultPins
import OtterFusion.Base.Ownership
import OtterFusion.Runtime.Alloc
import OtterFusion.Runtime.AllocNeverAliases
import OtterFusion.Pkg.RangeKeys
import OtterFusion.Pkg.Features
import OtterFusion.Pkg.FeatureGraph
import OtterFusion.Pkg.FeatureFixpoint
import OtterFusion.Runtime.SharedCancel
import OtterFusion.Runtime.CancelledLocks
import OtterFusion.Compiler.Lexer
import OtterFusion.Compiler.LexerLayout
import OtterFusion.Compiler.LexerKinds
import OtterFusion.Compiler.LexerTurns
import OtterFusion.Base.Ordering
import OtterFusion.Compiler.DerivedCoherent
import OtterFusion.Compiler.LexerCovers
import OtterFusion.Compiler.ScannersAgree
import OtterFusion.Compiler.Lower
import OtterFusion.Compiler.AliasFixpoint
import OtterFusion.Compiler.Unify
import OtterFusion.Compiler.Methods
import OtterFusion.Compiler.MethodResolution
import OtterFusion.Compiler.InterfaceSatisfaction
import OtterFusion.Compiler.Bodies
import OtterFusion.Compiler.TransfersInside
import OtterFusion.Compiler.ImportPaths
import OtterFusion.Compiler.Modules
import OtterFusion.Compiler.Imports
import OtterFusion.Compiler.ModuleTree
import OtterFusion.Compiler.ResolvedTargets
import OtterFusion.Compiler.BoundNames
import OtterFusion.Compiler.PackageBoundaries
import OtterFusion.Runtime.IoResults
import OtterFusion.Runtime.IoFuture
import OtterFusion.Runtime.IoExactlyOnce
import OtterFusion.Runtime.IoRegistrations
import OtterFusion.Runtime.IoSettles
import OtterFusion.Base.Mutex
import OtterFusion.Runtime.WorldBarrier
import OtterFusion.Runtime.StoppedWorld
import OtterFusion.Base.Trapping
import OtterFusion.Stdlib.Strings
import OtterFusion.Stdlib.NetTypes
import OtterFusion.Stdlib.Time
import OtterFusion.Stdlib.TimeParses
import OtterFusion.Stdlib.Cuts
import OtterFusion.Stdlib.NetNumbers
import OtterFusion.Stdlib.NetAddresses
import OtterFusion.Stdlib.NetUris
import OtterFusion.Stdlib.TextParsers
import OtterFusion.Base.Toml
import OtterFusion.Pkg.LockText
import OtterFusion.Pkg.LockRoundTrip
import OtterFusion.Backend.InlineCalls
import OtterFusion.Backend.TypeIds
import OtterFusion.Backend.UnionTests
import OtterFusion.Pkg.GraphSteps
import OtterFusion.Pkg.GraphMinimal
import OtterFusion.Macros.Spoilers
import OtterFusion.Compiler.DefaultCopies
import OtterFusion.Base.Calendar
import OtterFusion.Stdlib.Civil
import OtterFusion.Stdlib.TimeFormat
import OtterFusion.Base.Utf8
import OtterFusion.Stdlib.Bytes
import OtterFusion.Stdlib.PercentCoding
import OtterFusion.Stdlib.Numerals
import OtterFusion.Stdlib.AddressGrammar
import OtterFusion.Stdlib.AddressParsers
import OtterFusion.Stdlib.AddressExact
import OtterFusion.Stdlib.UriTexts
import OtterFusion.Stdlib.UrlTexts
import OtterFusion.Stdlib.UrlRoundTrip
import OtterFusion.Stdlib.JsonPretty
import OtterFusion.Stdlib.Keys
import OtterFusion.Stdlib.RandExact
import OtterFusion.Stdlib.DequesRefine
import OtterFusion.Pkg.Why
import OtterFusion.Pkg.IndexShards
import OtterFusion.Stdlib.ExactTimes
import OtterFusion.Backend.TraceMaps
import OtterFusion.Pkg.ManifestEdits
import OtterFusion.Stdlib.HashTraps
import OtterFusion.Pkg.ServerRefines
import OtterFusion.Pkg.TreeChecksum
import OtterFusion.Pkg.ExtractRaces
import OtterFusion.Lsp.DocumentSync
import OtterFusion.Lsp.FoldingRanges
import OtterFusion.Lsp.FoldingScans
import OtterFusion.Lsp.FoldsExact
import OtterFusion.Stdlib.BufferedIoExact
import OtterFusion.Backend.CharCasts
import OtterFusion.Compiler.InterfaceCycles
import OtterFusion.Compiler.InheritedSignatures
import OtterFusion.Base.TomlDocuments
import OtterFusion.Base.HashCons
import OtterFusion.Compiler.TyTable
import OtterFusion.Compiler.UnionLattice
import OtterFusion.Base.Turns
import OtterFusion.Backend.ForLoopsAgree
