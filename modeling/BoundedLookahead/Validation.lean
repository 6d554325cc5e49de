import BoundedLookahead.Findings
import BoundedLookahead.Journal
import BoundedLookahead.LeftRecursion
import BoundedLookahead.Reachability

/-!
# Validation

Validation looks for every problem of a grammar and stops at none of them. The
report lists later definitions, a start production that is not defined, what was
found in the trees of the productions, cycles of left calls and productions that
nothing uses, in that order. It also says what may be done with each production.

Trees are walked as they are. An arena whose ownership has not been checked may
hold references that lead nowhere; meeting one ends the run.
-/

namespace BoundedLookahead

/-- What validation found out about a grammar. -/
structure Report where
  /-- The problems in order. -/
  diagnostics : Diagnostics
  /-- What may be done with each production, in the order of the productions. -/
  status : List (String × ProductionStatus)
  /-- The productions that can match the empty word. -/
  nullable : List String
  /-- The cycles of left calls, each from its entry production on. -/
  cycles : List (List String)

namespace Report

/-- Whether no cycle of left calls was found. -/
def isLeftRecursionFree (report : Report) : Bool := report.cycles.isEmpty

/-- What may be done with the production of that name. -/
def status? (report : Report) (name : String) : Option ProductionStatus :=
  report.status.lookup name

/-- Whether the production has a structural error. -/
def isBlocked (report : Report) (name : String) : Bool := report.status? name == some .blocked

/-- Whether the production can match the empty word. -/
def isNullable (report : Report) (name : String) : Bool := report.nullable.contains name

end Report

namespace Registry

/-- The reports of later definitions. -/
def duplicateDiagnostics (registry : Registry) : List Diagnostic :=
  registry.duplicates.map fun later =>
    let first := ((registry.production? later.name).map (·.location)).getD {}
    ⟨.duplicateProduction, later.name, later.location,
      s!"production '{later.name}' is already defined at {first.text}"⟩

/-- The start production: the named one, else the first one, if it is defined. -/
def start? (registry : Registry) (options : Options) : Option String :=
  match options.start with
  | some name => if registry.isDefined name then some name else none
  | none => registry.names.head?

/-- The report of a named start production that is not defined. -/
def startDiagnostics (registry : Registry) (options : Options) : List Diagnostic :=
  match options.start with
  | some name =>
    if registry.isDefined name then []
    else [⟨.undefinedStart, name, {}, s!"start production '{name}' is not defined"⟩]
  | none => []

/-- The report of a cycle of left calls, at its entry production. -/
def cycleDiagnostic (registry : Registry) (cycle : List String) : Diagnostic :=
  let entry := cycle.headD ""
  let location := ((registry.production? entry).map (·.location)).getD {}
  ⟨.leftRecursion, entry, location,
    "left recursion detected: " ++ " -> ".intercalate (cycle ++ [entry])⟩

/-- The reports of productions that the start does not reach. -/
def unreachableDiagnostics (registry : Registry) (options : Options) : List Diagnostic :=
  match registry.start? options with
  | none => []
  | some start => (registry.unreachable start).map fun production =>
    ⟨.unreachableProduction, production.name, production.location,
      s!"production '{production.name}' is never used (unreachable from '{start}')"⟩

/-- What may be done with a production, given what was found in its tree. A later
definition of the name or a structural finding blocks it. -/
def statusOf (registry : Registry) (production : Production) (findings : List Finding) :
    ProductionStatus :=
  let repeated := registry.duplicates.any (·.name == production.name)
  if repeated || findings.any (·.problem.kind.isStructural) then .blocked
  else
    let loops := findings.filter (·.problem.kind == .emptyRepetition)
    if loops.isEmpty then .valid else .emptyRepetitionAt (loops.map (·.node))

end Registry

/-- Note a report. -/
def Run.report {σ : Type} (diagnostic : Diagnostic) : Run σ Unit := Run.note (.reported diagnostic)

/-- Report the findings in a production until a stray reference ends the run. -/
def Run.reportObservations {σ : Type} (production : String) :
    List Observation → Run σ (List Finding)
  | [] => pure []
  | .stray id :: _ => Run.fail (.strayNode id)
  | .finding finding :: observations => do
    Run.report (finding.diagnostic production)
    let findings ← Run.reportObservations production observations
    return finding :: findings

/-- Report the findings in several productions, production by production. -/
def Run.reportRules {σ : Type} (registry : Registry) (options : Options) (nullable : List String) :
    List Rule → Run σ (List (Production × List Finding))
  | [] => pure []
  | rule :: rules => do
    let findings ← Run.reportObservations rule.name
      (rule.tree.observations registry options nullable .plain)
    let others ← Run.reportRules registry options nullable rules
    return (rule.production, findings) :: others

/-- Validate a grammar. -/
def Registry.validate {σ : Type} (registry : Registry) (options : Options) : Run σ Report := do
  Run.note (.validating registry.productions.length registry.nodes.size)
  let nullable ← Run.ofExcept registry.nullableNames
  let initial := registry.duplicateDiagnostics ++ registry.startDiagnostics options
  Run.noteAll (initial.map .reported)
  let found ← Run.reportRules registry options nullable registry.rules
  let cycles := registry.leftRecursiveCycles nullable
  let final := cycles.map registry.cycleDiagnostic ++ registry.unreachableDiagnostics options
  Run.noteAll (final.map .reported)
  let status := found.map fun entry => (entry.1.name, registry.statusOf entry.1 entry.2)
  Run.noteAll (status.map fun entry => .settled entry.1 entry.2)
  let diagnostics := initial ++
    found.flatMap (fun entry => entry.2.map (·.diagnostic entry.1.name)) ++ final
  return ⟨⟨diagnostics⟩, status, nullable, cycles⟩

end BoundedLookahead
