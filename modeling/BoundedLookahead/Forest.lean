import BoundedLookahead.Registry
import BoundedLookahead.Tree
import Std.Data.ExtTreeMap

/-!
# The forest of an arena

Whatever follows from the children of a node can be found for the whole arena
from the leaves upwards: sweeps over the nodes that are still pending settle those
whose children are settled, until a sweep settles nothing. A reference outside
the arena needs no settling. A node on a cycle, or above one, is never settled.

Every node has one value, however often it is referenced, and the value is found
when it is first asked for. The trees of the nodes are the plainest instance.
-/

namespace BoundedLookahead

/-- The values of the settled nodes. -/
abbrev Harvest (β : Type) := Std.ExtTreeMap NodeId (Thunk β)

namespace Registry

section

variable {β : Type} (registry : Registry) (stray : NodeId → β)
  (node : NodeId → Location → Expansion (Thunk β) → β)

/-- The value of a node; one that is not settled counts as a stray reference. -/
def valueIn (harvest : Harvest β) (id : NodeId) : Thunk β :=
  (harvest.get? id).getD (Thunk.mk fun _ => stray id)

/-- Whether every child in the arena is settled. -/
def isReady (harvest : Harvest β) (expansion : Expansion NodeId) : Bool :=
  expansion.children.all fun child =>
    harvest.contains child || decide (registry.nodes.size ≤ child)

/-- One sweep over the pending nodes. It returns those that are still pending, in
reverse order, so that the next sweep runs the other way. -/
def sweep : List NodeId → Harvest β → List NodeId → Harvest β × List NodeId
  | [], harvest, left => (harvest, left)
  | id :: pending, harvest, left =>
    match registry.nodes[id]? with
    | none => sweep pending harvest left
    | some { expansion, location } =>
      if registry.isReady harvest expansion then
        let values := expansion.map (valueIn stray harvest)
        sweep pending (harvest.insert id (Thunk.mk fun _ => node id location values)) left
      else sweep pending harvest (id :: left)

/-- Sweep until nothing more is settled. Every sweep but the last settles a node,
so no more sweeps than nodes are needed. -/
def sweepAll : Nat → List NodeId → Harvest β → Harvest β
  | 0, _, harvest => harvest
  | sweeps + 1, pending, harvest =>
    let (harvest, left) := registry.sweep stray node pending harvest []
    if left.length = pending.length then harvest else sweepAll sweeps left harvest

/-- The values of all nodes that can be settled. -/
def harvest : Harvest β :=
  registry.sweepAll stray node registry.nodes.size (List.range registry.nodes.size) ∅

end

/-- The trees of all nodes that can be settled. -/
def trees (registry : Registry) : Harvest Tree :=
  registry.harvest Tree.stray fun id location expansion =>
    .node id location (expansion.map Thunk.get)

/-- The tree of a node. -/
def tree (registry : Registry) (id : NodeId) : Tree := (valueIn Tree.stray registry.trees id).get

end Registry

/-- A production with its tree. -/
structure Rule where
  /-- The production. -/
  production : Production
  /-- The tree of its root. -/
  tree : Tree

/-- The name of the production. -/
def Rule.name (rule : Rule) : String := rule.production.name

/-- The productions with their trees. -/
def Registry.rules (registry : Registry) : List Rule :=
  let trees := registry.trees
  registry.productions.map fun production =>
    ⟨production, (valueIn Tree.stray trees production.root).get⟩

end BoundedLookahead
