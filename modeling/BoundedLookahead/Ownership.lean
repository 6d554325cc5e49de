import BoundedLookahead.Registry
import Std.Data.ExtTreeMap

/-!
# Ownership

In a well-formed arena every node that a definition reaches is referenced once:
as the root of one definition or as one child of one node. The check follows the
references of every definition, first and later ones, and gives each node it
meets an owner. A second reference to a node, or a reference to a node that does
not exist, stops it.
-/

namespace BoundedLookahead

/-- What references a node. -/
inductive Owner where
  /-- The node with that id has it among its children. -/
  | node (id : NodeId)
  /-- A definition of that name has it as root. -/
  | production (name : String)
deriving DecidableEq

/-- The owners found so far. -/
abbrev Owners := Std.ExtTreeMap NodeId Owner

namespace Registry

/-- Give a node its owner. -/
def claim (registry : Registry) (owner : Owner) (owners : Owners) (id : NodeId) :
    Except AnalysisError Owners :=
  if id < registry.nodes.size then
    if owners.contains id then .error (.sharedNode id) else .ok (owners.insert id owner)
  else .error (.unknownNode id)

/-- The ids that the node with this id references. -/
def childIds (registry : Registry) (id : NodeId) : List NodeId :=
  match registry.nodes[id]? with
  | some node => node.expansion.children
  | none => []

/-- Give the children of every pending node their owner, the last reference
first, and so on below them. Every step settles a node that had no owner before,
so `fuel` beyond the size of the arena is never used up. -/
def settle (registry : Registry) : Nat → List NodeId → Owners → Except AnalysisError Owners
  | 0, _, owners => .ok owners
  | _ + 1, [], owners => .ok owners
  | fuel + 1, id :: pending, owners => do
    let children := registry.childIds id
    let owners ← children.foldlM (registry.claim (.node id)) owners
    registry.settle fuel (children.reverse ++ pending) owners

/-- Give every node below a definition its owner. -/
def settleDefinition (registry : Registry) (owners : Owners) (definition : Production) :
    Except AnalysisError Owners := do
  let owners ← registry.claim (.production definition.name) owners definition.root
  registry.settle (registry.nodes.size + 1) [definition.root] owners

/-- The owner of every node that a definition reaches, if the reached part of the
arena is a forest. -/
def owners (registry : Registry) : Except AnalysisError Owners :=
  registry.definitions.foldlM registry.settleDefinition ∅

end Registry

end BoundedLookahead
