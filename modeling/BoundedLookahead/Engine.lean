import BoundedLookahead.Ownership
import BoundedLookahead.Solution
import BoundedLookahead.Validation

/-!
# The lookahead engine

An engine answers questions about first sets for a grammar without left
recursion. What is found for a depth is kept, so that each depth is solved once
and each node is walked at most once for it. What is kept is always the level of
that depth, so an answer does not depend on the questions asked before.
-/

namespace BoundedLookahead

/-- A grammar with the levels found so far. -/
structure Engine where
  /-- The grammar. -/
  registry : Registry
  /-- The productions that can match the empty word. -/
  nullable : List String
  /-- The largest number of words of a first set. -/
  limit : Nat
  /-- The levels by depth. -/
  levels : List (Nat × Level) := []
  /-- What is kept for a depth is the level of that depth. -/
  levels_eq : ∀ entry ∈ levels, registry.level limit entry.1 = .ok entry.2 := by simp

namespace Engine

/-- An engine for a validated grammar. It is refused for a left-recursive grammar,
for settings with a fault and for an arena that is no forest. -/
def start (registry : Registry) (report : Report) (options : Options) :
    Except AnalysisError Engine := do
  if !report.isLeftRecursionFree then throw .leftRecursive
  options.check
  let _ ← registry.owners
  return { registry, nullable := report.nullable, limit := options.expansionLimit }

/-- The level kept for a depth. -/
def level? (engine : Engine) (k : Nat) : Option Level :=
  (engine.levels.find? fun entry => entry.1 == k).map (·.2)

/-- Keep one more level. -/
def keep (engine : Engine) (k : Nat) (level : Level)
    (h : engine.registry.level engine.limit k = .ok level) : Engine :=
  { engine with
    levels := (k, level) :: engine.levels
    levels_eq := List.forall_mem_cons.mpr ⟨h, engine.levels_eq⟩ }

end Engine

/-- The notes on solving for the first sets of the named productions. -/
def Solution.notes (solution : Solution) (names : List String) (k : Nat) : List Note :=
  match solution.outcome with
  | .ok sets =>
    ((List.range solution.rounds).map fun round =>
      .round k (round + 1) (decide (round + 1 < solution.rounds))) ++
    names.map fun name => .solved k name (sets.find name)
  | .error _ => (List.range solution.rounds).map fun round => .round k (round + 1) true

namespace Engine

/-- The level at depth `k`, found now or before. -/
def level (k : Nat) : Run Engine Level := do
  let engine ← Run.get
  match engine.level? k with
  | some level => return level
  | none =>
    let solution := engine.registry.solveFirst engine.limit k
    Run.noteAll (solution.notes engine.registry.names k)
    match h : solution.outcome with
    | .error cause => Run.fail cause
    | .ok sets =>
      let level := engine.registry.levelOf engine.limit k sets
      Run.set (engine.keep k level (congrArg (Except.map _) h))
      return level

/-- The first set of a node at depth `k`. -/
def first (id : NodeId) (k : Nat) : Run Engine FirstSet := do
  Run.ofExcept ((← level k).first id)

/-- The first set of nodes in a row at depth `k`. -/
def firstOfUnits (ids : List NodeId) (k : Nat) : Run Engine FirstSet :=
  firstOfSequence (fun id => first id k) k FirstSet.epsilon ids

/-- The first set of a production by name at depth `k`. -/
def firstOfProduction (name : String) (k : Nat) : Run Engine FirstSet := do
  return (← level k).sets.find name

/-- Whether a node can match the empty word. -/
def isNullable (id : NodeId) : Run Engine Bool := do
  let engine ← Run.get
  Run.ofExcept ((engine.registry.nullableNodes engine.nullable).isNullable id)

end Engine

/-- A question to an engine. -/
inductive Query where
  /-- The first set of a node at a depth. -/
  | first (id : NodeId) (k : Nat)
  /-- The first set of nodes that follow one another, at a depth. -/
  | units (ids : List NodeId) (k : Nat)
  /-- The first set of a production at a depth. -/
  | production (name : String) (k : Nat)
  /-- Whether a node can match the empty word. -/
  | nullable (id : NodeId)
  /-- How many nodes the grammar has. -/
  | nodeCount

/-- An answer of an engine. -/
inductive Answer where
  /-- A first set. -/
  | set (set : FirstSet)
  /-- A truth value. -/
  | truth (value : Bool)
  /-- A number. -/
  | count (value : Nat)
deriving DecidableEq

namespace Engine

/-- Answer a question. -/
def answer : Query → Run Engine Answer
  | .first id k => do return .set (← first id k)
  | .units ids k => do return .set (← firstOfUnits ids k)
  | .production name k => do return .set (← firstOfProduction name k)
  | .nullable id => do return .truth (← isNullable id)
  | .nodeCount => do return .count (← Run.get).registry.nodes.size

/-- Answer questions one after the other on one engine; a question that fails
leaves the engine usable for those after it. -/
def answers : List Query → Run Engine (List (Except AnalysisError Answer))
  | [] => pure []
  | query :: queries => do
    let reply ← fun engine =>
      let trail := answer query engine
      ⟨trail.notes, trail.state, .ok trail.result⟩
    let replies ← answers queries
    return reply :: replies

end Engine

end BoundedLookahead
