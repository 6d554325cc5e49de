import BoundedLookahead.Forest

/-!
# Outlines of trees

The outline of a tree has one line for each node, indented by two blanks for
each step below the root: the construct, its location and what identifies it.
-/

namespace BoundedLookahead

/-- What a line says about the node beyond its construct and location. -/
def Expansion.details {α : Type} : Expansion α → String
  | .terminal kind => " " ++ kind
  | .nonTerminal name args =>
    " " ++ name ++ if args.isEmpty then "" else "(" ++ ", ".intercalate args ++ ")"
  | .lookahead directive =>
    (match directive.amount with
      | some amount => s!" amount={amount}"
      | none => "") ++
    match directive.predicate with
    | some predicate => " \x7b " ++ predicate ++ " \x7d"
    | none => ""
  | .action code => " \x7b " ++ code ++ " \x7d"
  | .tryBlock _ handlers _ =>
    String.join (handlers.map fun handler => s!" catch({handler.exception})")
  | _ => ""

namespace Tree

/-- The line of a node at the given indentation. -/
def line (indent : Nat) (location : Location) (expansion : Expansion Tree) : String :=
  "".pushn ' ' (2 * indent) ++ expansion.kindName ++ " " ++ location.text ++ expansion.details

mutual

/-- The lines of a tree; a stray reference has none. -/
def outline (indent : Nat) : Tree → List String
  | .stray _ => []
  | .node _ location expansion =>
    line indent location expansion :: outlineBelow (indent + 1) expansion
termination_by structural tree => tree

/-- The lines of the children of an expansion. -/
def outlineBelow (indent : Nat) : Expansion Tree → List String
  | .terminal _ => []
  | .nonTerminal _ _ => []
  | .sequence units => outlineForest indent units
  | .choice alternatives => outlineForest indent alternatives
  | .repetition _ body none => outline indent body
  | .repetition _ body (some guard) => outline indent guard ++ outline indent body
  | .lookahead ⟨_, _, none⟩ => []
  | .lookahead ⟨_, _, some guard⟩ => outline indent guard
  | .action _ => []
  | .tryBlock body _ _ => outline indent body
termination_by structural expansion => expansion

/-- The lines of several trees, tree by tree. -/
def outlineForest (indent : Nat) : List Tree → List String
  | [] => []
  | tree :: trees => outline indent tree ++ outlineForest indent trees
termination_by structural trees => trees

end

/-- The outline as a text. -/
def outlineText (tree : Tree) : String :=
  String.join ((tree.outline 0).map fun line => line ++ "\n")

end Tree

/-- The outline of the tree below a node; the first reference outside the arena
makes it impossible. -/
def Registry.outline (registry : Registry) (id : NodeId) : Except AnalysisError String :=
  let tree := registry.tree id
  match tree.strays with
  | [] => .ok tree.outlineText
  | stray :: _ => .error (.strayNode stray)

end BoundedLookahead
