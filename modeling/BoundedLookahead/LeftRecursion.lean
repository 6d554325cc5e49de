import BoundedLookahead.Nullability

/-!
# Left recursion

A production calls another one on the left when it can reach the call before it
has consumed a token. A cycle of such calls would make a predictive parser run
forever. The search follows left calls depth first and reports a cycle for every
call that leads back into the current path.
-/

namespace BoundedLookahead

namespace Tree

mutual

/-- The productions the tree can call before it consumes a token, in the order of
a walk. Lookahead directives and explicit lookaheads consume nothing and are not
entered. -/
def leftCalls (names : List String) : Tree → List String
  | .stray _ => []
  | .node _ _ (.terminal _) => []
  | .node _ _ (.nonTerminal name _) => [name]
  | .node _ _ (.sequence units) => unitLeftCalls names units
  | .node _ _ (.choice alternatives) => alternativeLeftCalls names alternatives
  | .node _ _ (.repetition _ body _) => leftCalls names body
  | .node _ _ (.lookahead _) => []
  | .node _ _ (.action _) => []
  | .node _ _ (.tryBlock body _ _) => leftCalls names body
termination_by structural tree => tree

/-- The left calls of a sequence end with its first unit that is not nullable. -/
def unitLeftCalls (names : List String) : List Tree → List String
  | [] => []
  | tree :: trees =>
    leftCalls names tree ++ if nullable names tree then unitLeftCalls names trees else []
termination_by structural trees => trees

/-- The left calls of a choice are those of its alternatives. -/
def alternativeLeftCalls (names : List String) : List Tree → List String
  | [] => []
  | tree :: trees => leftCalls names tree ++ alternativeLeftCalls names trees
termination_by structural trees => trees

end

/-- The left calls of a choice, alternative by alternative. -/
theorem alternativeLeftCalls_eq_flatMap (names : List String) (trees : List Tree) :
    alternativeLeftCalls names trees = trees.flatMap (leftCalls names) := by
  induction trees with
  | nil => rfl
  | cons tree trees ih => simp only [alternativeLeftCalls, ih, List.flatMap_cons]

end Tree

/-- The defined productions that each production calls on the left, every one
once, in the order of the calls. -/
def Registry.leftCallGraph (registry : Registry) (names : List String) :
    List (String × List String) :=
  registry.rules.map fun rule =>
    (rule.name, (rule.tree.leftCalls names).eraseDups.filter registry.isDefined)

/-- The state of a search for cycles. -/
structure CycleSearch where
  /-- The productions the search has entered. -/
  visited : List String := []
  /-- The cycles it has found, each from its entry production on. -/
  cycles : List (List String) := []

namespace CycleSearch

/-- Explore what `name` calls on the left. `path` leads from the start of the
search to `name`, which is its head. A call back into the path closes a cycle; a
production entered before is not entered again. The path never repeats a name,
so `fuel` beyond the number of productions is never used up. -/
def explore (graph : List (String × List String)) :
    Nat → List String → String → CycleSearch → CycleSearch
  | 0, _, _, search => search
  | fuel + 1, path, name, search =>
    let path := name :: path
    ((graph.lookup name).getD []).foldl
      (fun search callee =>
        if path.contains callee then
          { search with
            cycles := search.cycles ++ [callee :: (path.takeWhile (· != callee)).reverse] }
        else if search.visited.contains callee then search
        else explore graph fuel path callee search)
      { search with visited := name :: search.visited }

/-- Explore from every production that no earlier exploration has entered. -/
def run (graph : List (String × List String)) : CycleSearch :=
  graph.foldl
    (fun search rule =>
      if search.visited.contains rule.1 then search
      else explore graph (graph.length + 1) [] rule.1 search)
    {}

end CycleSearch

/-- The cycles of left calls that the search finds. -/
def Registry.leftRecursiveCycles (registry : Registry) (names : List String) :
    List (List String) :=
  (CycleSearch.run (registry.leftCallGraph names)).cycles

end BoundedLookahead
