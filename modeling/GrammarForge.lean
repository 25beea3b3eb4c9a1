import GrammarForge.Grammar.Builder
import GrammarForge.Report
import GrammarForge.Scanner.Basic
import GrammarForge.Proofs.DepthFirst
import GrammarForge.Proofs.EpsilonClosure
import GrammarForge.Proofs.AutomatonRun
import GrammarForge.Proofs.Reduction
import GrammarForge.Proofs.CharSets
import GrammarForge.Proofs.RegexLanguage
import GrammarForge.Proofs.Paths
import GrammarForge.Proofs.Fragments
import GrammarForge.Proofs.Construction
import GrammarForge.Proofs.TokenAutomaton
import GrammarForge.Proofs.LongestMatch
import GrammarForge.Proofs.LinkedTokens
import GrammarForge.Proofs.Scanning
import GrammarForge.Proofs.Derivations
import GrammarForge.Proofs.Openings
import GrammarForge.Proofs.SentMatches
import GrammarForge.Proofs.FirstWalk
import GrammarForge.Proofs.LinkedTree
import GrammarForge.Proofs.Rising
import GrammarForge.Proofs.FollowRecord
import GrammarForge.Proofs.FollowWalk
import GrammarForge.Proofs.FirstTermination
import GrammarForge.Proofs.FollowTermination
import GrammarForge.Proofs.ParallelWalks
import GrammarForge.Proofs.EngineMemory
import GrammarForge.Proofs.ChoiceConflicts
import GrammarForge.Proofs.RepetitionConflicts
import GrammarForge.Proofs.Nullability
import GrammarForge.Proofs.FirstTokens
import GrammarForge.Proofs.Dispatch
import GrammarForge.Proofs.SilentChecks
import GrammarForge.Proofs.NormalForm
import GrammarForge.Proofs.BuildSteps
import GrammarForge.Proofs.Rebuilding
import GrammarForge.Proofs.Recompilation
import GrammarForge.Proofs.SharedExpressions
import GrammarForge.Proofs.CaseFolding
import GrammarForge.Proofs.NamedReferences
import GrammarForge.Proofs.Relocation
import GrammarForge.Proofs.WrittenGrammars
import GrammarForge.Proofs.TidyStates
import GrammarForge.Proofs.TidyFragments
import GrammarForge.Proofs.ScanTables
import GrammarForge.Proofs.ScannerTurns
import GrammarForge.Proofs.SafeScanning
import GrammarForge.Proofs.ScanFailures
import GrammarForge.Proofs.ScannedText
import GrammarForge.Proofs.ScanRequests
import GrammarForge.Proofs.PlannedRoutines
import GrammarForge.Proofs.ScanBudgets
import GrammarForge.Proofs.ClosureSweeps
import GrammarForge.Proofs.SharpStates
import GrammarForge.Proofs.ReducedClosures
import GrammarForge.Proofs.MatchPaths
import GrammarForge.Proofs.ScanProgress
import GrammarForge.Proofs.MinimumSize
import GrammarForge.Proofs.ProductionNames
import GrammarForge.Proofs.Descent
import GrammarForge.Proofs.Relinking
import GrammarForge.Proofs.EscapedTexts
import GrammarForge.Proofs.TidyLists
import GrammarForge.Proofs.ParentLinks
import GrammarForge.Proofs.Onsets
import GrammarForge.Proofs.FirstAgreement
import GrammarForge.Proofs.MoveHistory
import GrammarForge.Proofs.FaithfulNumbering
