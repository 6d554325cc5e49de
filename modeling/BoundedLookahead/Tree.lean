import BoundedLookahead.Expansion

/-!
# Expansion trees

The tree unfolded from an arena node holds the node's id, its location and its
expansion over subtrees. An id that the arena does not hold unfolds to a stray
leaf; a tree without stray leaves is whole. Every walk of the library recurses
on these trees, so it ends by construction.
-/

namespace BoundedLookahead

/-- A node with everything below it. -/
inductive Tree where
  /-- A node of the arena over the trees of its children. -/
  | node (id : NodeId) (location : Location) (expansion : Expansion Tree)
  /-- A reference to a node that is not in the arena. -/
  | stray (id : NodeId)

namespace Tree

/-- The id under which the tree is referenced. -/
def id : Tree → NodeId
  | .node id _ _ => id
  | .stray id => id

/-- Where the root was written; a stray reference has no place of its own. -/
def location : Tree → Location
  | .node _ location _ => location
  | .stray _ => {}

/-- The direct subtrees in declaration order. -/
def children : Tree → List Tree
  | .node _ _ expansion => expansion.children
  | .stray _ => []

/-- The construct at the root. -/
def expansion? : Tree → Option (Expansion Tree)
  | .node _ _ expansion => some expansion
  | .stray _ => none

mutual

/-- The tree and everything below it, a parent before its children, in front of
other trees. -/
def pushSubtrees : Tree → List Tree → List Tree
  | .stray id, rest => .stray id :: rest
  | .node id location expansion, rest =>
    .node id location expansion :: pushDescendants expansion rest
termination_by structural tree => tree

/-- Every proper subtree of a node with this expansion, in front of other trees. -/
def pushDescendants : Expansion Tree → List Tree → List Tree
  | .terminal _, rest => rest
  | .nonTerminal _ _, rest => rest
  | .sequence units, rest => pushForest units rest
  | .choice alternatives, rest => pushForest alternatives rest
  | .repetition _ body none, rest => pushSubtrees body rest
  | .repetition _ body (some guard), rest => pushSubtrees guard (pushSubtrees body rest)
  | .lookahead ⟨_, _, none⟩, rest => rest
  | .lookahead ⟨_, _, some guard⟩, rest => pushSubtrees guard rest
  | .action _, rest => rest
  | .tryBlock body _ _, rest => pushSubtrees body rest
termination_by structural expansion => expansion

/-- Every subtree of a list of trees, tree by tree, in front of other trees. -/
def pushForest : List Tree → List Tree → List Tree
  | [], rest => rest
  | tree :: trees, rest => pushSubtrees tree (pushForest trees rest)
termination_by structural trees => trees

end

/-- The tree and everything below it, a parent before its children. -/
def subtrees (tree : Tree) : List Tree := pushSubtrees tree []

/-- The subtrees of a list of trees go in front one tree after the other. -/
theorem pushForest_eq_foldr (trees rest : List Tree) :
    pushForest trees rest = trees.foldr pushSubtrees rest := by
  induction trees with
  | nil => rfl
  | cons tree trees ih => simp only [pushForest, ih, List.foldr_cons]

/-- Below an expansion lie the subtrees of its children. -/
theorem pushDescendants_eq_foldr (expansion : Expansion Tree) (rest : List Tree) :
    pushDescendants expansion rest = expansion.children.foldr pushSubtrees rest := by
  cases expansion with
  | sequence units => exact pushForest_eq_foldr units rest
  | choice alternatives => exact pushForest_eq_foldr alternatives rest
  | repetition kind body guard => cases guard <;> rfl
  | lookahead directive =>
    obtain ⟨_, _, guard⟩ := directive
    cases guard <;> rfl
  | _ => rfl

/-- A child is smaller than its parent. -/
theorem sizeOf_child_lt {tree child : Tree} (h : child ∈ tree.children) :
    sizeOf child < sizeOf tree := by
  cases tree with
  | stray id => cases h
  | node id location expansion =>
    replace h : child ∈ expansion.children := h
    suffices sizeOf child < sizeOf expansion by simp only [node.sizeOf_spec]; omega
    cases expansion with
    | sequence units =>
      have := List.sizeOf_lt_of_mem h
      simp only [Expansion.children, Expansion.sequence.sizeOf_spec] at this ⊢; omega
    | choice alternatives =>
      have := List.sizeOf_lt_of_mem h
      simp only [Expansion.children, Expansion.choice.sizeOf_spec] at this ⊢; omega
    | repetition kind body guard =>
      cases guard <;> simp [Expansion.children] at h
      · subst h; simp only [Expansion.repetition.sizeOf_spec]; omega
      · rcases h with rfl | rfl <;>
          simp only [Expansion.repetition.sizeOf_spec, Option.some.sizeOf_spec] <;> omega
    | lookahead directive =>
      obtain ⟨_, _, guard⟩ := directive
      cases guard <;> simp [Expansion.children] at h
      subst h
      simp only [Expansion.lookahead.sizeOf_spec, Directive.mk.sizeOf_spec,
        Option.some.sizeOf_spec]
      omega
    | tryBlock body handlers cleanup =>
      simp [Expansion.children] at h
      subst h; simp only [Expansion.tryBlock.sizeOf_spec]; omega
    | _ => cases h

/-- A property that passes from the children to their parent holds of every tree. -/
theorem induction {motive : Tree → Prop} (stray : ∀ id, motive (.stray id))
    (node : ∀ id location expansion,
      (∀ child ∈ expansion.children, motive child) → motive (.node id location expansion)) :
    ∀ tree, motive tree
  | .stray id => stray id
  | .node id location expansion => node id location expansion fun child _ =>
    induction stray node child
termination_by tree => sizeOf tree
decreasing_by exact sizeOf_child_lt (by assumption)

/-- Subtrees that go in front of other trees are followed by these. -/
theorem pushSubtrees_eq_append (tree : Tree) :
    ∀ rest, pushSubtrees tree rest = tree.subtrees ++ rest := by
  induction tree using Tree.induction with
  | stray id => exact fun rest => rfl
  | node id location expansion ih =>
    have (children : List Tree) (h : ∀ child ∈ children, child ∈ expansion.children)
        (rest : List Tree) : children.foldr pushSubtrees rest =
          children.foldr pushSubtrees [] ++ rest := by
      induction children with
      | nil => rfl
      | cons child children ihc =>
        rw [List.forall_mem_cons] at h
        rw [List.foldr_cons, List.foldr_cons, ihc h.2, ih child h.1, ih child h.1,
          List.append_assoc]
    intro rest
    simp only [subtrees, pushSubtrees, pushDescendants_eq_foldr, List.cons_append]
    rw [this _ (fun _ h => h)]

/-- A tree's subtrees are itself and the subtrees of its children. -/
theorem subtrees_eq (tree : Tree) : tree.subtrees = tree :: tree.children.flatMap subtrees := by
  have (trees : List Tree) : trees.foldr pushSubtrees [] = trees.flatMap subtrees := by
    induction trees with
    | nil => rfl
    | cons tree trees ih =>
      rw [List.foldr_cons, pushSubtrees_eq_append, ih, List.flatMap_cons]
  cases tree with
  | stray id => rfl
  | node id location expansion =>
    simp only [subtrees, pushSubtrees, pushDescendants_eq_foldr, this, children]

section

variable {β : Type} (stray : NodeId → β) (node : NodeId → Location → Expansion (Thunk β) → β)

mutual

/-- The value of a tree whose nodes get their values from those of their children.
The value of a child is found when it is asked for. -/
def fold : Tree → β
  | .stray id => stray id
  | .node id location expansion => node id location (foldChildren expansion)
termination_by structural tree => tree

/-- The expansion over the values of its children. -/
def foldChildren : Expansion Tree → Expansion (Thunk β)
  | .terminal kind => .terminal kind
  | .nonTerminal name args => .nonTerminal name args
  | .sequence units => .sequence (foldForest units)
  | .choice alternatives => .choice (foldForest alternatives)
  | .repetition kind body none => .repetition kind (Thunk.mk fun _ => fold body) none
  | .repetition kind body (some guard) =>
    .repetition kind (Thunk.mk fun _ => fold body) (some (Thunk.mk fun _ => fold guard))
  | .lookahead ⟨amount, predicate, none⟩ => .lookahead ⟨amount, predicate, none⟩
  | .lookahead ⟨amount, predicate, some guard⟩ =>
    .lookahead ⟨amount, predicate, some (Thunk.mk fun _ => fold guard)⟩
  | .action code => .action code
  | .tryBlock body handlers cleanup => .tryBlock (Thunk.mk fun _ => fold body) handlers cleanup
termination_by structural expansion => expansion

/-- The values of several trees. -/
def foldForest : List Tree → List (Thunk β)
  | [] => []
  | tree :: trees => (Thunk.mk fun _ => fold tree) :: foldForest trees
termination_by structural trees => trees

end

/-- The values of several trees, tree by tree. -/
theorem foldForest_eq_map (trees : List Tree) :
    foldForest stray node trees = trees.map fun tree => Thunk.mk fun _ => fold stray node tree := by
  induction trees with
  | nil => rfl
  | cons tree trees ih => simp only [foldForest, ih, List.map_cons]

/-- Every child is replaced by its value. -/
theorem foldChildren_eq_map (expansion : Expansion Tree) :
    foldChildren stray node expansion =
      expansion.map fun tree => Thunk.mk fun _ => fold stray node tree := by
  cases expansion with
  | sequence units => simp only [foldChildren, foldForest_eq_map, Expansion.map]
  | choice alternatives => simp only [foldChildren, foldForest_eq_map, Expansion.map]
  | repetition kind body guard => cases guard <;> rfl
  | lookahead directive =>
    obtain ⟨_, _, guard⟩ := directive
    cases guard <;> rfl
  | _ => rfl

/-- The value of a node follows from the values of its children. -/
theorem fold_node (id : NodeId) (location : Location) (expansion : Expansion Tree) :
    fold stray node (.node id location expansion) =
      node id location (expansion.map fun tree => Thunk.mk fun _ => fold stray node tree) := by
  simp only [fold, foldChildren_eq_map]

end

/-- The ids below the root that the arena does not hold, in the order of a walk. -/
def strays (tree : Tree) : List NodeId :=
  tree.subtrees.filterMap fun
    | .stray id => some id
    | .node _ _ _ => none

/-- Every reference in the tree leads into the arena. -/
def Whole (tree : Tree) : Prop := tree.strays = []

instance (tree : Tree) : Decidable tree.Whole :=
  inferInstanceAs (Decidable (tree.strays = []))

/-- A stray leaf is its own only stray reference. -/
@[simp] theorem strays_stray (id : NodeId) : (Tree.stray id).strays = [id] := rfl

/-- The stray references of a node are those of its children. -/
@[simp] theorem strays_node (id : NodeId) (location : Location) (expansion : Expansion Tree) :
    (Tree.node id location expansion).strays = expansion.children.flatMap strays := by
  simp only [strays, subtrees_eq (Tree.node id location expansion), children,
    List.filterMap_cons]
  induction expansion.children with
  | nil => rfl
  | cons tree trees ih => simp only [List.flatMap_cons, List.filterMap_append, ih, strays]

/-- A node is whole when all its children are. -/
theorem whole_node {id : NodeId} {location : Location} {expansion : Expansion Tree} :
    (Tree.node id location expansion).Whole ↔ ∀ child ∈ expansion.children, child.Whole := by
  simp [Whole, List.flatMap_eq_nil_iff]

/-- The productions called anywhere in the tree, guards included, in the order of
a walk and with repetitions. -/
def calls (tree : Tree) : List String :=
  tree.subtrees.filterMap fun
    | .node _ _ (.nonTerminal name _) => some name
    | _ => none

/-- The largest explicit depth in the tree, 0 when it gives none. -/
def deepestAmount (tree : Tree) : Nat :=
  (tree.subtrees.filterMap fun
    | .node _ _ (.lookahead directive) => directive.amount
    | _ => none).foldl max 0

/-- The directive that leads the tree: its root, or the one that leads the first
unit of its sequence. -/
def leadingDirective? : Tree → Option (Directive Tree)
  | .node _ _ (.lookahead directive) => some directive
  | .node _ _ (.sequence (first :: _)) => first.leadingDirective?
  | _ => none
termination_by structural tree => tree

end Tree

end BoundedLookahead
