import BoundedLookahead.Forest

/-!
# Nullability

An expansion is nullable when it can match the empty word. The nullable
productions are found by sweeps over all productions, each sweep using what it
has already found, until a sweep finds nothing new.

The walk looks at no more of a tree than the answer needs. A reference outside
the arena is an error only where the walk looks at it; on whole trees the walk
never fails, and its answer is given by a plain recursion.
-/

namespace BoundedLookahead

namespace Tree

mutual

/-- Whether the tree can match the empty word when the productions in `names`
can and no others. -/
def nullable (names : List String) : Tree → Bool
  | .stray _ => false
  | .node _ _ (.terminal _) => false
  | .node _ _ (.nonTerminal name _) => names.contains name
  | .node _ _ (.sequence units) => allNullable names units
  | .node _ _ (.choice alternatives) => anyNullable names alternatives
  | .node _ _ (.repetition .zeroOrOne _ _) => true
  | .node _ _ (.repetition .zeroOrMore _ _) => true
  | .node _ _ (.repetition .oneOrMore body _) => nullable names body
  | .node _ _ (.lookahead _) => true
  | .node _ _ (.action _) => true
  | .node _ _ (.tryBlock body _ _) => nullable names body
termination_by structural tree => tree

/-- Whether every one of the trees can match the empty word. -/
def allNullable (names : List String) : List Tree → Bool
  | [] => true
  | tree :: trees => nullable names tree && allNullable names trees
termination_by structural trees => trees

/-- Whether some one of the trees can match the empty word. -/
def anyNullable (names : List String) : List Tree → Bool
  | [] => false
  | tree :: trees => nullable names tree || anyNullable names trees
termination_by structural trees => trees

end

end Tree

/-- Whether an expansion can match the empty word, given how its children answer.
No child is asked whose answer does not matter: none after the first unit that
cannot match the empty word, and none after the first alternative that can. -/
def Expansion.nullable? {α : Type} (ask : α → Except AnalysisError Bool) (names : List String) :
    Expansion α → Except AnalysisError Bool
  | .terminal _ => .ok false
  | .nonTerminal name _ => .ok (names.contains name)
  | .sequence units => units.allM ask
  | .choice alternatives => alternatives.anyM ask
  | .repetition .oneOrMore body _ => ask body
  | .repetition _ _ _ => .ok true
  | .lookahead _ => .ok true
  | .action _ => .ok true
  | .tryBlock body _ _ => ask body

/-- Whether a node can match the empty word, given the answers of its children. -/
def nullableNode (names : List String) (_ : NodeId) (_ : Location)
    (expansion : Expansion (Thunk (Except AnalysisError Bool))) : Except AnalysisError Bool :=
  expansion.nullable? Thunk.get names

namespace Tree

/-- The answer of `nullable`, or the first reference outside the arena that has
to be looked at to find it. -/
def nullable? (names : List String) : Tree → Except AnalysisError Bool :=
  fold (fun id => .error (.strayNode id)) (nullableNode names)

/-- All trees are nullable when each is. -/
@[simp] theorem allNullable_eq_all (names : List String) (trees : List Tree) :
    allNullable names trees = trees.all (nullable names) := by
  induction trees with
  | nil => rfl
  | cons tree trees ih => simp only [allNullable, ih, List.all_cons]

/-- Some tree is nullable when one is. -/
@[simp] theorem anyNullable_eq_any (names : List String) (trees : List Tree) :
    anyNullable names trees = trees.any (nullable names) := by
  induction trees with
  | nil => rfl
  | cons tree trees ih => simp only [anyNullable, ih, List.any_cons]

/-- The careful walk over a node asks its children. -/
theorem nullable?_node (names : List String) (id : NodeId) (location : Location)
    (expansion : Expansion Tree) :
    nullable? names (.node id location expansion) =
      expansion.nullable? (nullable? names) names := by
  unfold nullable?
  rw [fold_node]
  cases expansion with
  | sequence units =>
    simp only [nullableNode, Expansion.map, Expansion.nullable?]
    induction units with
    | nil => rfl
    | cons unit units ih => simp only [List.map_cons, List.allM, ih, Thunk.get]
  | choice alternatives =>
    simp only [nullableNode, Expansion.map, Expansion.nullable?]
    induction alternatives with
    | nil => rfl
    | cons alternative alternatives ih => simp only [List.map_cons, List.anyM, ih, Thunk.get]
  | repetition kind body guard => cases kind <;> rfl
  | _ => rfl

/-- Where every tree of a row answers, the row answers whether all can match the
empty word. -/
theorem allM_nullable? (names : List String) (trees : List Tree)
    (h : ∀ tree ∈ trees, nullable? names tree = .ok (nullable names tree)) :
    trees.allM (nullable? names) = .ok (trees.all (nullable names)) := by
  induction trees with
  | nil => rfl
  | cons tree trees ih =>
    rw [List.forall_mem_cons] at h
    simp only [List.allM, List.all_cons, h.1, ih h.2, bind, Except.bind]
    cases nullable names tree <;> rfl

/-- Where every tree of a row answers, the row answers whether some can match the
empty word. -/
theorem anyM_nullable? (names : List String) (trees : List Tree)
    (h : ∀ tree ∈ trees, nullable? names tree = .ok (nullable names tree)) :
    trees.anyM (nullable? names) = .ok (trees.any (nullable names)) := by
  induction trees with
  | nil => rfl
  | cons tree trees ih =>
    rw [List.forall_mem_cons] at h
    simp only [List.anyM, List.any_cons, h.1, ih h.2, bind, Except.bind]
    cases nullable names tree <;> rfl

/-- On a whole tree the careful walk finds the answer. -/
theorem nullable?_eq (names : List String) (tree : Tree) (h : tree.Whole) :
    nullable? names tree = .ok (nullable names tree) := by
  induction tree using Tree.induction with
  | stray id => cases h
  | node id location expansion ih =>
    rw [whole_node] at h
    have hc : ∀ child ∈ expansion.children,
        nullable? names child = .ok (nullable names child) := fun child hm =>
      ih child hm (h child hm)
    rw [nullable?_node]
    cases expansion with
    | sequence units =>
      simp only [Expansion.nullable?, nullable, allNullable_eq_all]
      exact allM_nullable? names units hc
    | choice alternatives =>
      simp only [Expansion.nullable?, nullable, anyNullable_eq_any]
      exact anyM_nullable? names alternatives hc
    | repetition kind body guard =>
      cases kind with
      | oneOrMore => exact hc body (by cases guard <;> simp [Expansion.children])
      | _ => rfl
    | tryBlock body handlers cleanup => exact hc body (by simp [Expansion.children])
    | _ => rfl

end Tree

/-- One sweep over the rules: each that is not yet known to be nullable is tried
with all that are known by then. -/
def sweepNullable : List Rule → List String → Except AnalysisError (List String)
  | [], names => .ok names
  | rule :: rules, names =>
    if names.contains rule.name then sweepNullable rules names
    else do
      let found ← rule.tree.nullable? names
      sweepNullable rules (if found then names ++ [rule.name] else names)

/-- Sweep until nothing new is found. Every sweep but the last finds a new rule,
so `fuel` beyond their number is never used up. -/
def closeNullable (rules : List Rule) :
    Nat → List String → Except AnalysisError (List String)
  | 0, names => .ok names
  | fuel + 1, names => do
    let found ← sweepNullable rules names
    if found.length = names.length then return names else closeNullable rules fuel found

/-- The names of the productions that can match the empty word. -/
def Registry.nullableNames (registry : Registry) : Except AnalysisError (List String) :=
  closeNullable registry.rules (registry.productions.length + 1) []

/-- Whether each node of the arena can match the empty word, given the productions
that can. -/
def Registry.nullableNodes (registry : Registry) (names : List String) :
    Harvest (Except AnalysisError Bool) :=
  registry.harvest (fun id => .error (.strayNode id)) (nullableNode names)

/-- The answer for a node. -/
def Harvest.isNullable (nodes : Harvest (Except AnalysisError Bool)) (id : NodeId) :
    Except AnalysisError Bool :=
  (Registry.valueIn (fun id => .error (.strayNode id)) nodes id).get

/-- The nullable productions, and for each of the nodes whether it is nullable. -/
def Registry.nullabilityOf (registry : Registry) (ids : List NodeId) :
    Except AnalysisError (List String × List Bool) := do
  let names ← registry.nullableNames
  return (names, ← ids.mapM (registry.nullableNodes names).isNullable)

end BoundedLookahead
