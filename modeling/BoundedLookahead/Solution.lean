import BoundedLookahead.FirstSet
import BoundedLookahead.Forest

/-!
# First sets of trees and productions

The first set of a tree follows from the first sets of the productions it calls
by one walk. The first sets of the productions are found in rounds: all start
empty, and every round walks every production with the sets of the round before,
until a round changes nothing.

A repetition is entered at most once by the walk, since further iterations are
decided when they come up. A sequence is left as soon as its words have all
reached the bound. A set larger than the limit ends the computation wherever the
walk meets it.
-/

namespace BoundedLookahead

/-- First sets by production name. -/
abbrev SetTable := Std.ExtTreeMap String FirstSet

/-- The set of a production; one that is not in the table matches nothing. -/
def SetTable.find (sets : SetTable) (name : String) : FirstSet :=
  sets.getD name FirstSet.empty

/-- Let a set pass whose size is within the limit. -/
def FirstSet.within (set : FirstSet) (node : NodeId) (depth limit : Nat) :
    Except AnalysisError FirstSet :=
  if limit < set.size then .error (.limitExceeded node depth set.size limit) else .ok set

/-- The first set of units in a row, the first of them after a part with first set
`before`. A unit is looked at only while it can matter. -/
def firstOfSequence {m : Type → Type} [Monad m] {α : Type} (first : α → m FirstSet) (k : Nat)
    (before : FirstSet) : List α → m FirstSet
  | [] => pure before
  | unit :: units =>
    if before.saturated k then pure before
    else do
      let set ← first unit
      firstOfSequence first k (before.concat set k) units

/-- The first set of alternatives together with `others`. -/
def firstOfChoice {m : Type → Type} [Monad m] {α : Type} (first : α → m FirstSet)
    (others : FirstSet) : List α → m FirstSet
  | [] => pure others
  | alternative :: alternatives => do
    let set ← first alternative
    firstOfChoice first (others.union set) alternatives

/-- The first set of an expansion, given those of its children and of the
productions. -/
def Expansion.first {α : Type} (first : α → Except AnalysisError FirstSet) (sets : SetTable)
    (k : Nat) : Expansion α → Except AnalysisError FirstSet
  | .terminal kind => .ok (FirstSet.token kind)
  | .nonTerminal name _ => .ok (sets.find name)
  | .sequence units => firstOfSequence first k FirstSet.epsilon units
  | .choice alternatives => firstOfChoice first FirstSet.empty alternatives
  | .repetition .oneOrMore body _ => first body
  | .repetition _ body _ => do return (← first body).union FirstSet.epsilon
  | .lookahead _ => .ok FirstSet.epsilon
  | .action _ => .ok FirstSet.epsilon
  | .tryBlock body _ _ => first body

/-- The first set of a node, given those of its children and of the productions. -/
def firstOfNode (sets : SetTable) (k limit : Nat) (id : NodeId) (_ : Location)
    (expansion : Expansion (Thunk (Except AnalysisError FirstSet))) :
    Except AnalysisError FirstSet := do
  let set ← expansion.first Thunk.get sets k
  set.within id k limit

/-- The first set of a tree at depth `k`, given the sets of the productions. -/
def Tree.first (sets : SetTable) (k limit : Nat) : Tree → Except AnalysisError FirstSet :=
  Tree.fold (fun id => .error (.strayNode id)) (firstOfNode sets k limit)

/-- The outcome of solving for the sets of the productions at one depth. -/
structure Solution where
  /-- How many rounds were completed. -/
  rounds : Nat
  /-- The sets, or what stopped the round after the completed ones. -/
  outcome : Except AnalysisError SetTable

/-- One round: the sets of all productions, given the sets of the round before. -/
def firstRound (rules : List Rule) (k limit : Nat) (sets : SetTable) :
    Except AnalysisError SetTable := do
  return Std.ExtTreeMap.ofList
    (← rules.mapM fun rule => do return (rule.name, ← rule.tree.first sets k limit))

/-- Run rounds until one changes nothing. -/
def iterateFirst (rules : List Rule) (k limit : Nat) : Nat → Nat → SetTable → Solution
  | 0, rounds, sets => ⟨rounds, .ok sets⟩
  | fuel + 1, rounds, sets =>
    match firstRound rules k limit sets with
    | .error cause => ⟨rounds, .error cause⟩
    | .ok next =>
      if next = sets then ⟨rounds + 1, .ok next⟩
      else iterateFirst rules k limit fuel (rounds + 1) next

namespace Registry

/-- Solve for the sets of the productions at depth `k`. Every round but the last
adds a word or an empty match to some set, and no set outgrows the limit, so the
rounds allowed here are never used up. -/
def solveFirst (registry : Registry) (limit k : Nat) : Solution :=
  iterateFirst registry.rules k limit (registry.productions.length * (limit + 1) + 2) 0
    (Std.ExtTreeMap.ofList (registry.names.map fun name => (name, FirstSet.empty)))

/-- The first sets of the nodes at depth `k`, given those of the productions. -/
def firstSets (registry : Registry) (limit k : Nat) (sets : SetTable) :
    Harvest (Except AnalysisError FirstSet) :=
  registry.harvest (fun id => .error (.strayNode id)) (firstOfNode sets k limit)

end Registry

/-- Everything about first sets at one depth. -/
structure Level where
  /-- The sets of the productions. -/
  sets : SetTable
  /-- The sets of the nodes. -/
  nodes : Harvest (Except AnalysisError FirstSet)

/-- The first set of a node. -/
def Level.first (level : Level) (id : NodeId) : Except AnalysisError FirstSet :=
  (Registry.valueIn (fun id => .error (.strayNode id)) level.nodes id).get

namespace Registry

/-- The level whose productions have the given sets. -/
def levelOf (registry : Registry) (limit k : Nat) (sets : SetTable) : Level :=
  ⟨sets, registry.firstSets limit k sets⟩

/-- The level at depth `k`. -/
def level (registry : Registry) (limit k : Nat) : Except AnalysisError Level :=
  (registry.solveFirst limit k).outcome.map (registry.levelOf limit k)

/-- The first set of a node at depth `k`. -/
def firstOf (registry : Registry) (limit : Nat) (id : NodeId) (k : Nat) :
    Except AnalysisError FirstSet := do
  (← registry.level limit k).first id

/-- The first set of a production by name at depth `k`. -/
def firstOfProduction (registry : Registry) (limit : Nat) (name : String) (k : Nat) :
    Except AnalysisError FirstSet := do
  return (← registry.level limit k).sets.find name

end Registry

end BoundedLookahead
