import BoundedLookahead.Expansion
import BoundedLookahead.Tree
import BoundedLookahead.FirstSet
import BoundedLookahead.AnalysisError
import BoundedLookahead.Diagnostic
import BoundedLookahead.Options
import BoundedLookahead.Options.Config
import BoundedLookahead.Registry
import BoundedLookahead.Forest
import BoundedLookahead.Ownership
import BoundedLookahead.Nullability
import BoundedLookahead.Findings
import BoundedLookahead.LeftRecursion
import BoundedLookahead.Reachability
import BoundedLookahead.Solution
import BoundedLookahead.Decision
import BoundedLookahead.Outline
import BoundedLookahead.Journal
import BoundedLookahead.Validation
import BoundedLookahead.Engine
import BoundedLookahead.Recall
import BoundedLookahead.Resolution
import BoundedLookahead.Analysis
import BoundedLookahead.Text.Hidden
import BoundedLookahead.Text.Quoted
import BoundedLookahead.Expectation
import BoundedLookahead.Proofs.Arena
import BoundedLookahead.Proofs.OwnershipRun
import BoundedLookahead.Proofs.Derivation
import BoundedLookahead.Proofs.FirstSets
import BoundedLookahead.Proofs.Outcome
import BoundedLookahead.Proofs.Rounds
import BoundedLookahead.Proofs.Beginnings
import BoundedLookahead.Proofs.EngineAnswers
import BoundedLookahead.Proofs.Conflicts
import BoundedLookahead.Proofs.ChoicePoints
import BoundedLookahead.Proofs.Selection
import BoundedLookahead.Proofs.Stages
import BoundedLookahead.Proofs.ResolvedNodes
import BoundedLookahead.Proofs.UndisputedChoices
import BoundedLookahead.Proofs.Exploration
import BoundedLookahead.Proofs.LeftCalls
import BoundedLookahead.Proofs.Safety
import BoundedLookahead.Proofs.Truncation
import BoundedLookahead.Proofs.Parents
import BoundedLookahead.Proofs.Directives
import BoundedLookahead.Proofs.Horizons
import BoundedLookahead.Proofs.Places
import BoundedLookahead.Proofs.Disputes
import BoundedLookahead.Proofs.SinglePoints
import BoundedLookahead.Proofs.Reports
import BoundedLookahead.Proofs.Depths
import BoundedLookahead.Proofs.Continuations
import BoundedLookahead.Proofs.LoopConflicts
import BoundedLookahead.Proofs.DecisionPoints
import BoundedLookahead.Proofs.Unrolling
import BoundedLookahead.Proofs.Statuses
import BoundedLookahead.Proofs.Histories
import BoundedLookahead.Proofs.Forests
import BoundedLookahead.Proofs.Parts
import BoundedLookahead.Proofs.Lockstep
import BoundedLookahead.Proofs.Limits
import BoundedLookahead.Proofs.Inheritance
import BoundedLookahead.Proofs.Reordering
import BoundedLookahead.Proofs.Extension
import BoundedLookahead.Proofs.Placement
import BoundedLookahead.Proofs.Problems
import BoundedLookahead.Proofs.UnusedProductions
import BoundedLookahead.Proofs.References
import BoundedLookahead.Proofs.Ambiguities
import BoundedLookahead.Proofs.ClosingCalls
import BoundedLookahead.Proofs.Emptied
import BoundedLookahead.Proofs.EmptiedWalks
import BoundedLookahead.Proofs.EmptiedReports
import BoundedLookahead.Proofs.FollowDepths
import BoundedLookahead.Proofs.IgnoredDirectives
import BoundedLookahead.Proofs.Markers
import BoundedLookahead.Proofs.Defaults
import BoundedLookahead.Proofs.BareDepths
import BoundedLookahead.Proofs.Rows
import BoundedLookahead.Proofs.LeastSolutions
import BoundedLookahead.Proofs.Concatenation
