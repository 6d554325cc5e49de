import BoundedLookahead.Engine

/-!
# Recalled first sets

What an engine keeps can be kept set by set. A walk keeps the first set of a node as soon
as it has found it, so a walk that fails leaves behind the sets of the nodes it was done
with. The sets of the productions of a depth are kept only when solving for them has
succeeded; every round of solving starts with nothing kept. The engine written out here
makes no notes; it gives the answers of the engine that keeps levels.
-/

namespace BoundedLookahead

/-- First sets by node, at one depth. -/
abbrev Memo := Std.ExtTreeMap NodeId FirstSet

/-- The first set of an expansion, given walks that find those of its children. -/
def Expansion.recall {α : Type} (first : α → Run Memo FirstSet) (sets : SetTable) (k : Nat) :
    Expansion α → Run Memo FirstSet
  | .terminal kind => pure (FirstSet.token kind)
  | .nonTerminal name _ => pure (sets.find name)
  | .sequence units => firstOfSequence first k FirstSet.epsilon units
  | .choice alternatives => firstOfChoice first FirstSet.empty alternatives
  | .repetition .oneOrMore body _ => first body
  | .repetition _ body _ => do return (← first body).union FirstSet.epsilon
  | .lookahead _ => pure FirstSet.epsilon
  | .action _ => pure FirstSet.epsilon
  | .tryBlock body _ _ => first body

/-- Keep the first set of a node. -/
def Memo.keep (id : NodeId) (set : FirstSet) : Run Memo Unit := do
  Run.set ((← Run.get).insert id set)

/-- The first set of a node: the one that is kept, or else the one that follows from the
children of the node, which is kept when it is within the limit. -/
def recallNode (sets : SetTable) (k limit : Nat) (id : NodeId) (_ : Location)
    (expansion : Expansion (Thunk (Run Memo FirstSet))) : Run Memo FirstSet := do
  match (← Run.get).get? id with
  | some set => return set
  | none =>
    let found ← expansion.recall Thunk.get sets k
    let set ← Run.ofExcept (found.within id k limit)
    Memo.keep id set
    return set

/-- The first set of a tree, found by a walk that keeps what it finds. -/
def Tree.recall (sets : SetTable) (k limit : Nat) : Tree → Run Memo FirstSet :=
  Tree.fold (fun id => Run.fail (.strayNode id)) (recallNode sets k limit)

/-- The first sets of several productions, found by one walk after the other. -/
def recallRules (sets : SetTable) (k limit : Nat) : List Rule → Run Memo (List (String × FirstSet))
  | [] => pure []
  | rule :: rules => do
    let set ← rule.tree.recall sets k limit
    let others ← recallRules sets k limit rules
    return (rule.name, set) :: others

/-- One round of solving. What its walks keep is forgotten at its end, since the sets of
the productions change. -/
def recallRound (rules : List Rule) (k limit : Nat) (sets : SetTable) :
    Except AnalysisError SetTable := do
  return Std.ExtTreeMap.ofList (← (recallRules sets k limit rules ∅).result)

/-- Run rounds until one changes nothing. -/
def iterateRecall (rules : List Rule) (k limit : Nat) :
    Nat → SetTable → Except AnalysisError SetTable
  | 0, sets => .ok sets
  | fuel + 1, sets => do
    let next ← recallRound rules k limit sets
    if next = sets then return next else iterateRecall rules k limit fuel next

/-- The sets of the productions at depth `k`. -/
def Registry.recallSets (registry : Registry) (limit k : Nat) : Except AnalysisError SetTable :=
  iterateRecall registry.rules k limit (registry.productions.length * (limit + 1) + 2)
    (Std.ExtTreeMap.ofList (registry.names.map fun name => (name, FirstSet.empty)))

/-- A grammar with the first sets kept so far. -/
structure RecallEngine where
  /-- The grammar. -/
  registry : Registry
  /-- The productions that can match the empty word. -/
  nullable : List String
  /-- The largest number of words of a first set. -/
  limit : Nat
  /-- The sets of the productions by depth. -/
  solved : Std.ExtTreeMap Nat SetTable := ∅
  /-- The sets of the nodes by depth. -/
  memos : Std.ExtTreeMap Nat Memo := ∅

/-- An engine for the same grammar that has kept nothing. -/
def Engine.recalling (engine : Engine) : RecallEngine where
  registry := engine.registry
  nullable := engine.nullable
  limit := engine.limit

namespace RecallEngine

/-- The sets of the nodes that are kept for a depth. -/
def memo (engine : RecallEngine) (k : Nat) : Memo := (engine.memos.get? k).getD ∅

/-- The sets of the productions at depth `k`, found now or before. -/
def sets (k : Nat) : Run RecallEngine SetTable := do
  let engine ← Run.get
  match engine.solved.get? k with
  | some sets => return sets
  | none =>
    let sets ← Run.ofExcept (engine.registry.recallSets engine.limit k)
    Run.set { engine with solved := engine.solved.insert k sets }
    return sets

/-- Walk at depth `k` with what is kept for that depth, and keep what the walk leaves
behind, also when it fails. -/
def walk {α : Type} (k : Nat) (run : Run Memo α) : Run RecallEngine α := fun engine =>
  let trail := run (engine.memo k)
  ⟨trail.notes, { engine with memos := engine.memos.insert k trail.state }, trail.result⟩

/-- The first set of a node at depth `k`, kept or found by a walk. -/
def first (id : NodeId) (k : Nat) : Run RecallEngine FirstSet := do
  let engine ← Run.get
  match (engine.memo k).get? id with
  | some set => return set
  | none =>
    let sets ← sets k
    walk k ((engine.registry.tree id).recall sets k engine.limit)

/-- The first set of nodes in a row at depth `k`. -/
def firstOfUnits (ids : List NodeId) (k : Nat) : Run RecallEngine FirstSet :=
  firstOfSequence (fun id => first id k) k FirstSet.epsilon ids

/-- The first set of a production by name at depth `k`. -/
def firstOfProduction (name : String) (k : Nat) : Run RecallEngine FirstSet := do
  return (← sets k).find name

/-- Answer a question. -/
def answer : Query → Run RecallEngine Answer
  | .first id k => do return .set (← first id k)
  | .units ids k => do return .set (← firstOfUnits ids k)
  | .production name k => do return .set (← firstOfProduction name k)
  | .nullable id => do
    let engine ← Run.get
    return .truth (← Run.ofExcept ((engine.registry.nullableNodes engine.nullable).isNullable id))
  | .nodeCount => do return .count (← Run.get).registry.nodes.size

/-- Answer questions one after the other on one engine; a question that fails leaves
behind what was kept until then. -/
def answers : List Query → Run RecallEngine (List (Except AnalysisError Answer))
  | [] => pure []
  | query :: queries => do
    let reply ← fun engine =>
      let trail := answer query engine
      ⟨trail.notes, trail.state, .ok trail.result⟩
    let replies ← answers queries
    return reply :: replies

end RecallEngine

end BoundedLookahead
