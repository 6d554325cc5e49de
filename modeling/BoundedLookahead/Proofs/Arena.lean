import BoundedLookahead.Forest
import BoundedLookahead.Ownership
import Mathlib.Logic.Relation

/-!
# Finite parts of an arena

A node is grounded when it exists and all its children are grounded. Every walk
below a grounded node ends and never leaves the arena. The value of a grounded
node in a harvest follows from the values of its children, so its tree is whole
and the harvest of any walk is that walk over the tree.
-/

namespace BoundedLookahead

namespace Registry

/-- The construct of a node. -/
def expansion? (registry : Registry) (id : NodeId) : Option (Expansion NodeId) :=
  (registry.nodes[id]?).map (·.expansion)

/-- The second node is among the children of the first. -/
def Child (registry : Registry) (parent child : NodeId) : Prop :=
  child ∈ registry.childIds parent

/-- Following children from the first node, zero or more times, meets the second. -/
abbrev Reaches (registry : Registry) : NodeId → NodeId → Prop :=
  Relation.ReflTransGen registry.Child

/-- The node stands in the tree of a registered production. -/
def InProduction (registry : Registry) (id : NodeId) : Prop :=
  ∃ production ∈ registry.productions, registry.Reaches production.root id

/-- The node stands in the tree of a definition, a first or a later one. -/
def InDefinition (registry : Registry) (id : NodeId) : Prop :=
  ∃ definition ∈ registry.definitions, registry.Reaches definition.root id

/-- The node is in the arena, and so is everything below it, in finitely many
steps. -/
inductive Grounded (registry : Registry) : NodeId → Prop
  /-- A node of the arena whose children are grounded. -/
  | node {id : NodeId} {node : Node} (found : registry.nodes[id]? = some node)
    (below : ∀ child ∈ node.expansion.children, Grounded registry child) : Grounded registry id

variable {registry : Registry} {id other : NodeId}

/-- A grounded node has a construct. -/
theorem Grounded.exists_expansion (h : registry.Grounded id) :
    ∃ expansion, registry.expansion? id = some expansion ∧
      ∀ child ∈ expansion.children, registry.Grounded child := by
  cases h with
  | node found below => exact ⟨_, by simp [expansion?, found], below⟩

/-- The children of a grounded node are grounded. -/
theorem Grounded.of_expansion {expansion : Expansion NodeId} (h : registry.Grounded id)
    (he : registry.expansion? id = some expansion) :
    ∀ child ∈ expansion.children, registry.Grounded child := by
  obtain ⟨other, ho, below⟩ := h.exists_expansion
  rw [he] at ho
  cases ho
  exact below

/-- A node with a construct is in the arena. -/
theorem exists_node {expansion : Expansion NodeId} (h : registry.expansion? id = some expansion) :
    ∃ location, registry.nodes[id]? = some ⟨expansion, location⟩ := by
  obtain ⟨node, found, rfl⟩ := Option.map_eq_some_iff.mp h
  exact ⟨node.location, found⟩

/-- The children of a node are those of its construct. -/
theorem childIds_eq {expansion : Expansion NodeId} (h : registry.expansion? id = some expansion) :
    registry.childIds id = expansion.children := by
  obtain ⟨location, found⟩ := exists_node h
  simp [childIds, found]

/-- In an arena in which nodes refer to earlier nodes only, every node is grounded. -/
theorem grounded_of_lt
    (earlier : ∀ id < registry.nodes.size, ∀ child ∈ registry.childIds id, child < id)
    (h : id < registry.nodes.size) : registry.Grounded id := by
  induction id using Nat.strongRecOn with
  | _ id ih =>
    have found : registry.nodes[id]? = some registry.nodes[id] := Array.getElem?_eq_getElem h
    refine .node found fun child hc => ?_
    have hlt : child < id := earlier id h child (by simpa [childIds, found] using hc)
    exact ih child hlt (Nat.lt_trans hlt h)

/-- The children of a node of a production stand in that production. -/
theorem InProduction.step (h : registry.InProduction id) (hc : registry.Child id other) :
    registry.InProduction other := by
  obtain ⟨production, hp, hr⟩ := h
  exact ⟨production, hp, hr.tail hc⟩

/-- The children of its construct stand in that production. -/
theorem InProduction.of_child {expansion : Expansion NodeId} (h : registry.InProduction id)
    (he : registry.expansion? id = some expansion) (hc : other ∈ expansion.children) :
    registry.InProduction other := by
  refine h.step ?_
  rw [Child, childIds_eq he]
  exact hc

/-- The root of a production stands in that production. -/
theorem InProduction.root {production : Production} (h : production ∈ registry.productions) :
    registry.InProduction production.root := ⟨production, h, .refl⟩

/-- Productions are definitions. -/
theorem InProduction.inDefinition (h : registry.InProduction id) : registry.InDefinition id := by
  obtain ⟨production, hp, hr⟩ := h
  exact ⟨production, List.mem_append_left _ hp, hr⟩

/-- The children of a node of a definition stand in that definition. -/
theorem InDefinition.step (h : registry.InDefinition id) (hc : registry.Child id other) :
    registry.InDefinition other := by
  obtain ⟨definition, hd, hr⟩ := h
  exact ⟨definition, hd, hr.tail hc⟩

/-- The root of a definition stands in it. -/
theorem InDefinition.root {definition : Production} (h : definition ∈ registry.definitions) :
    registry.InDefinition definition.root := ⟨definition, h, .refl⟩

/-- The root of a production stands in a definition. -/
theorem InDefinition.production {production : Production} (h : production ∈ registry.productions) :
    registry.InDefinition production.root := (InProduction.root h).inDefinition

/-- Everything below a grounded node is grounded. -/
theorem Grounded.of_reaches (h : registry.Grounded id) (hr : registry.Reaches id other) :
    registry.Grounded other := by
  induction hr with
  | refl => exact h
  | tail _ step ih =>
    obtain ⟨expansion, he, below⟩ := ih.exists_expansion
    rw [Child, childIds_eq he] at step
    exact below _ step

/-- Where the roots are grounded, so is every node of a production. -/
theorem InProduction.grounded_of (h : registry.InProduction id)
    (roots : ∀ production ∈ registry.productions, registry.Grounded production.root) :
    registry.Grounded id := by
  obtain ⟨production, hp, hr⟩ := h
  exact (roots production hp).of_reaches hr

section

variable {β : Type} {stray : NodeId → β} {node : NodeId → Location → Expansion (Thunk β) → β}

/-- The value follows from the children of the node, and theirs from their
children, down to references outside the arena. -/
inductive Unfolds (registry : Registry) (stray : NodeId → β)
    (node : NodeId → Location → Expansion (Thunk β) → β) : NodeId → β → Prop
  /-- Outside the arena there is only the reference. -/
  | stray {id : NodeId} (absent : registry.nodes.size ≤ id) : Unfolds registry stray node id (stray id)
  /-- A node has the value its construct gives to the values of its children. -/
  | node {id : NodeId} {expansion : Expansion NodeId} {location : Location}
    (values : NodeId → Thunk β) (found : registry.nodes[id]? = some ⟨expansion, location⟩)
    (below : ∀ child ∈ expansion.children, Unfolds registry stray node child (values child).get) :
    Unfolds registry stray node id (node id location (expansion.map values))

/-- A node has one value. -/
theorem Unfolds.unique {a b : β} (ha : Unfolds registry stray node id a)
    (hb : Unfolds registry stray node id b) : a = b := by
  induction ha generalizing b with
  | stray absent =>
    cases hb with
    | stray _ => rfl
    | node values found below => rw [Array.getElem?_eq_none absent] at found; cases found
  | node values found below ih =>
    cases hb with
    | stray absent => rw [Array.getElem?_eq_none absent] at found; cases found
    | node values' found' below' =>
      rw [found] at found'
      cases found'
      rw [Expansion.map_congr fun child hc => ?_]
      exact Thunk.ext (ih child hc (below' child hc))

/-- Every value of the harvest follows from the children of its node. -/
def Faithful (registry : Registry) (stray : NodeId → β)
    (node : NodeId → Location → Expansion (Thunk β) → β) (harvest : Harvest β) : Prop :=
  ∀ id value, harvest[id]? = some value → Unfolds registry stray node id value.get

/-- In a faithful harvest a node that is settled or outside the arena has the
value that follows from its children. -/
theorem Faithful.valueIn {harvest : Harvest β} (h : Faithful registry stray node harvest)
    (settled : id ∈ harvest ∨ registry.nodes.size ≤ id) :
    Unfolds registry stray node id (Registry.valueIn stray harvest id).get := by
  unfold Registry.valueIn
  cases hv : harvest[id]? with
  | some value => simpa [hv] using h id value hv
  | none =>
    rcases settled with hm | absent
    · rw [Std.ExtTreeMap.mem_iff_isSome_getElem?, hv] at hm
      cases hm
    · rw [Std.ExtTreeMap.get?_eq_getElem?, hv]
      exact .stray absent

/-- A construct is ready when its children are settled or outside the arena. -/
theorem isReady_iff {harvest : Harvest β} {expansion : Expansion NodeId} :
    registry.isReady harvest expansion = true ↔
      ∀ child ∈ expansion.children, child ∈ harvest ∨ registry.nodes.size ≤ child := by
  simp [isReady]

/-- Settling a ready node keeps the harvest faithful. -/
theorem Faithful.insert {harvest : Harvest β} {expansion : Expansion NodeId} {location : Location}
    (h : Faithful registry stray node harvest)
    (found : registry.nodes[id]? = some ⟨expansion, location⟩)
    (ready : registry.isReady harvest expansion = true) :
    Faithful registry stray node (harvest.insert id
      (Thunk.mk fun _ => node id location (expansion.map (Registry.valueIn stray harvest)))) := by
  intro other value hv
  rw [Std.ExtTreeMap.getElem?_insert] at hv
  split at hv
  · next he =>
    rw [Nat.compare_eq_eq] at he
    subst he
    cases hv
    exact .node _ found fun child hc => h.valueIn (isReady_iff.mp ready child hc)
  · exact h other value hv

/-- What one sweep over pending nodes does: it settles nodes faithfully, it
forgets none, and it settles something unless no pending node is ready. -/
structure Swept (registry : Registry) (stray : NodeId → β)
    (node : NodeId → Location → Expansion (Thunk β) → β) (pending : List NodeId)
    (harvest : Harvest β) (left : List NodeId) (result : Harvest β × List NodeId) : Prop where
  /-- A faithful harvest stays faithful. -/
  faithful : Faithful registry stray node harvest → Faithful registry stray node result.1
  /-- Settled nodes stay settled. -/
  kept : ∀ id ∈ harvest, id ∈ result.1
  /-- Nodes that were left over stay left over. -/
  carried : ∀ id ∈ left, id ∈ result.2
  /-- A pending node of the arena is settled or left over. -/
  covered : ∀ id ∈ pending, id < registry.nodes.size → id ∈ result.1 ∨ id ∈ result.2
  /-- No more nodes are left over than there were pending. -/
  length_le : result.2.length ≤ left.length + pending.length
  /-- Where nothing is settled, nothing was ready. -/
  stable : result.2.length = left.length + pending.length → result.1 = harvest ∧
    ∀ id ∈ pending, ∀ expansion location, registry.nodes[id]? = some ⟨expansion, location⟩ →
      registry.isReady harvest expansion = false

/-- The sweep does that. -/
theorem sweep_swept (pending : List NodeId) (harvest : Harvest β) (left : List NodeId) :
    Swept registry stray node pending harvest left
      (registry.sweep stray node pending harvest left) := by
  induction pending generalizing harvest left with
  | nil =>
    exact ⟨fun h => h, fun _ h => h, fun _ h => h, by simp, by simp [sweep], by simp [sweep]⟩
  | cons first pending ih =>
    cases found : registry.nodes[first]? with
    | none =>
      have hs := Array.getElem?_eq_none_iff.mp found
      have h := ih harvest left
      simp only [sweep, found]
      refine ⟨h.faithful, h.kept, h.carried, ?_, ?_, ?_⟩
      · intro id hm hlt
        rcases List.mem_cons.mp hm with rfl | hm
        · exact absurd hlt (Nat.not_lt.mpr hs)
        · exact h.covered id hm hlt
      · have := h.length_le
        simp only [List.length_cons]; omega
      · have := h.length_le
        simp only [List.length_cons]; omega
    | some entry =>
      obtain ⟨expansion, location⟩ := entry
      by_cases ready : registry.isReady harvest expansion = true
      · have h := ih (harvest.insert first
          (Thunk.mk fun _ => node first location (expansion.map (Registry.valueIn stray harvest)))) left
        simp only [sweep, found, ready, if_true]
        refine ⟨fun hf => h.faithful (hf.insert found ready), ?_, h.carried, ?_, ?_, ?_⟩
        · exact fun id hm => h.kept id (Std.ExtTreeMap.mem_insert.mpr (.inr hm))
        · intro id hm hlt
          rcases List.mem_cons.mp hm with rfl | hm
          · exact .inl (h.kept id Std.ExtTreeMap.mem_insert_self)
          · exact h.covered id hm hlt
        · have := h.length_le
          simp only [List.length_cons]; omega
        · have := h.length_le
          simp only [List.length_cons]; omega
      · have h := ih harvest (first :: left)
        rw [Bool.not_eq_true] at ready
        simp only [sweep, found, ready, Bool.false_eq_true, if_false]
        refine ⟨h.faithful, h.kept, fun id hm => h.carried id (List.mem_cons_of_mem _ hm), ?_, ?_, ?_⟩
        · intro id hm hlt
          rcases List.mem_cons.mp hm with rfl | hm
          · exact .inr (h.carried id List.mem_cons_self)
          · exact h.covered id hm hlt
        · have := h.length_le
          simp only [List.length_cons] at this ⊢; omega
        · intro hl
          simp only [List.length_cons] at hl
          obtain ⟨same, rest⟩ := h.stable (by simp only [List.length_cons]; omega)
          refine ⟨same, fun id hm e l hf => ?_⟩
          rcases List.mem_cons.mp hm with rfl | hm
          · rw [found] at hf
            cases hf
            exact ready
          · exact rest id hm e l hf

/-- Sweeping keeps the harvest faithful. -/
theorem sweepAll_faithful (sweeps : Nat) (pending : List NodeId) (harvest : Harvest β)
    (h : Faithful registry stray node harvest) :
    Faithful registry stray node (registry.sweepAll stray node sweeps pending harvest) := by
  induction sweeps generalizing pending harvest with
  | zero => exact h
  | succ sweeps ih =>
    have hs := (sweep_swept pending harvest []).faithful h
    simp only [sweepAll]
    split
    · exact hs
    · exact ih _ _ hs

/-- Sweeping stops only when every node of the arena that is ready is settled. -/
theorem sweepAll_closed (sweeps : Nat) (pending : List NodeId) (harvest : Harvest β)
    (covered : ∀ id < registry.nodes.size, id ∈ harvest ∨ id ∈ pending)
    (enough : pending.length ≤ sweeps) {expansion : Expansion NodeId} {location : Location}
    (found : registry.nodes[id]? = some ⟨expansion, location⟩)
    (ready : registry.isReady (registry.sweepAll stray node sweeps pending harvest) expansion = true) :
    id ∈ registry.sweepAll stray node sweeps pending harvest := by
  have inside : id < registry.nodes.size := (Array.getElem?_eq_some_iff.mp found).1
  induction sweeps generalizing pending harvest with
  | zero =>
    obtain rfl := List.length_eq_zero_iff.mp (Nat.le_zero.mp enough)
    exact (covered id inside).resolve_right List.not_mem_nil
  | succ sweeps ih =>
    have h : Swept registry stray node pending harvest [] _ := sweep_swept pending harvest []
    simp only [sweepAll] at ready ⊢
    split
    · next hl =>
      rw [if_pos hl] at ready
      obtain ⟨same, unready⟩ := h.stable (by simpa using hl)
      rcases covered id inside with hm | hm
      · exact h.kept id hm
      · rw [same, unready id hm expansion location found] at ready
        cases ready
    · next hl =>
      rw [if_neg hl] at ready
      refine ih _ _ (fun other hlt => ?_) ?_ ready
      · rcases covered other hlt with hm | hm
        · exact .inl (h.kept other hm)
        · exact h.covered other hm hlt
      · have := h.length_le
        simp only [List.length_nil, Nat.zero_add] at this
        omega

/-- The harvest of the arena is faithful. -/
theorem harvest_faithful : Faithful registry stray node (registry.harvest stray node) :=
  sweepAll_faithful _ _ _ fun id value hv => by
    rw [Std.ExtTreeMap.getElem?_empty] at hv
    cases hv

/-- Every grounded node is settled in the harvest. -/
theorem Grounded.mem_harvest (h : registry.Grounded id) :
    id ∈ registry.harvest stray node := by
  induction h with
  | @node id entry found below ih =>
    obtain ⟨expansion, location⟩ := entry
    refine sweepAll_closed _ _ _ (fun id hlt => .inr (List.mem_range.mpr hlt)) (by simp) found ?_
    exact isReady_iff.mpr fun child hc => .inl (ih child hc)

/-- The value of a grounded node follows from its children. -/
theorem Grounded.unfolds (h : registry.Grounded id) :
    Unfolds registry stray node id
      (Registry.valueIn stray (registry.harvest stray node) id).get :=
  harvest_faithful.valueIn (.inl h.mem_harvest)

end

/-- The tree of a grounded node holds its construct over the trees of its
children. -/
theorem Grounded.tree_eq {expansion : Expansion NodeId} {location : Location}
    (h : registry.Grounded id) (found : registry.nodes[id]? = some ⟨expansion, location⟩) :
    registry.tree id = .node id location (expansion.map registry.tree) := by
  have below : ∀ child ∈ expansion.children, registry.Grounded child := by
    cases h with
    | node found' below => rw [found] at found'; cases found'; exact below
  have hu : Unfolds registry Tree.stray
      (fun id location expansion => .node id location (expansion.map Thunk.get)) id
      (.node id location ((expansion.map fun child =>
        Registry.valueIn Tree.stray registry.trees child).map Thunk.get)) :=
    .node (Registry.valueIn Tree.stray registry.trees) found fun child hc => (below child hc).unfolds
  have := h.unfolds.unique hu
  rw [Expansion.map_map] at this
  exact this

/-- The tree of a grounded node, given the construct alone. -/
theorem Grounded.exists_tree_eq {expansion : Expansion NodeId} (h : registry.Grounded id)
    (he : registry.expansion? id = some expansion) :
    ∃ location, registry.tree id = .node id location (expansion.map registry.tree) := by
  obtain ⟨location, found⟩ := exists_node he
  exact ⟨location, h.tree_eq found⟩

/-- The tree of a grounded node bears its id. -/
theorem Grounded.tree_id (h : registry.Grounded id) : (registry.tree id).id = id := by
  obtain ⟨expansion, he, _⟩ := h.exists_expansion
  obtain ⟨location, ht⟩ := h.exists_tree_eq he
  rw [ht, Tree.id]

/-- The tree of a grounded node is whole. -/
theorem Grounded.whole (h : registry.Grounded id) : (registry.tree id).Whole := by
  induction h with
  | @node id entry found below ih =>
    obtain ⟨expansion, location⟩ := entry
    rw [(Grounded.node found below).tree_eq found, Tree.whole_node, Expansion.children_map]
    intro tree hm
    obtain ⟨child, hc, rfl⟩ := List.mem_map.mp hm
    exact ih child hc

/-- The harvest of a walk over a grounded node is the walk over its tree. -/
theorem Grounded.valueIn_harvest {β : Type} {stray : NodeId → β}
    {node : NodeId → Location → Expansion (Thunk β) → β} (h : registry.Grounded id) :
    (Registry.valueIn stray (registry.harvest stray node) id).get =
      (registry.tree id).fold stray node := by
  refine h.unfolds.unique ?_
  induction h with
  | @node id entry found below ih =>
    obtain ⟨expansion, location⟩ := entry
    rw [(Grounded.node found below).tree_eq found, Tree.fold_node, Expansion.map_map]
    exact .node _ found ih

/-- The subtrees of the tree of a grounded node are the trees of the nodes below
it. -/
theorem Grounded.mem_subtrees (h : registry.Grounded id) {tree : Tree} :
    tree ∈ (registry.tree id).subtrees ↔
      ∃ child, registry.Reaches id child ∧ registry.tree child = tree := by
  induction h with
  | @node id entry found below ih =>
    obtain ⟨expansion, location⟩ := entry
    have he : registry.expansion? id = some expansion := by simp [expansion?, found]
    have ht := (Grounded.node found below).tree_eq found
    have hc : (registry.tree id).children = expansion.children.map registry.tree := by
      rw [ht, Tree.children, Expansion.children_map]
    rw [Tree.subtrees_eq, hc, List.mem_cons, List.flatMap_map, List.mem_flatMap]
    constructor
    · rintro (rfl | ⟨child, hm, hs⟩)
      · exact ⟨id, .refl, rfl⟩
      · obtain ⟨other, hr, rfl⟩ := (ih child hm).mp hs
        exact ⟨other, .head (by rw [Child, childIds_eq he]; exact hm) hr, rfl⟩
    · rintro ⟨other, hr, rfl⟩
      rcases hr.cases_head with rfl | ⟨child, step, hr⟩
      · exact .inl rfl
      · rw [Child, childIds_eq he] at step
        exact .inr ⟨child, step, (ih child step).mpr ⟨other, hr, rfl⟩⟩

end Registry

end BoundedLookahead
