import BoundedLookahead.Resolution

/-!
# The analysis of a grammar

An analysis checks the options and the ownership of the arena, validates the
grammar and, unless it is left-recursive, resolves its decisions. Problems of the
grammar are diagnostics of the analysis. Only bad options, an arena that is no
forest and a first set that outgrows its limit are errors.
-/

namespace BoundedLookahead

/-- What a parser generator needs to know about a grammar. -/
structure Analysis where
  /-- The problems in order. -/
  diagnostics : Diagnostics
  /-- The decisions by node. -/
  decisions : DecisionTable
  /-- What may be done with each production, in the order of the productions. -/
  status : List (String × ProductionStatus)
  /-- Whether decisions were resolved; left recursion prevents it. -/
  lookaheadRan : Bool

namespace Analysis

/-- Whether some problem is an error. -/
def hasErrors (analysis : Analysis) : Bool := analysis.diagnostics.hasErrors

/-- The decision of a node. -/
def decision? (analysis : Analysis) (id : NodeId) : Option Decision := analysis.decisions.get? id

/-- What may be done with a production. -/
def status? (analysis : Analysis) (name : String) : Option ProductionStatus :=
  analysis.status.lookup name

/-- The note at the end of an analysis. -/
def doneNote (analysis : Analysis) : Note :=
  .done analysis.diagnostics.errors.length analysis.diagnostics.warnings.length
    analysis.decisions.size

end Analysis

/-- The decisions of a validated grammar, and whether they were resolved. -/
def Registry.decide {σ : Type} (registry : Registry) (report : Report) (options : Options) :
    Run σ (Resolution × Bool) :=
  if report.isLeftRecursionFree then do
    let engine ← Run.ofExcept (Engine.start registry report options)
    let resolution ← Run.within engine (Engine.resolve report options)
    return (resolution, true)
  else do
    Run.note (.undecided report.cycles.length)
    return (⟨∅, ⟨[]⟩⟩, false)

/-- Analyze a grammar. -/
def Registry.analyze {σ : Type} (registry : Registry) (options : Options) : Run σ Analysis := do
  Run.ofExcept options.check
  let _ ← Run.ofExcept registry.owners
  let report ← registry.validate options
  let (resolution, lookaheadRan) ← registry.decide report options
  let analysis : Analysis :=
    ⟨report.diagnostics ++ resolution.diagnostics, resolution.decisions, report.status,
      lookaheadRan⟩
  Run.note analysis.doneNote
  return analysis

end BoundedLookahead
