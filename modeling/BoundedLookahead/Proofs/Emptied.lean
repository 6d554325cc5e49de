import BoundedLookahead.Proofs.Inheritance
import BoundedLookahead.Proofs.Placement

/-!
# Emptying a directive

A directive that gives an amount and nothing else stands in its grammar like an empty
sequence: it has no children, it calls nothing, it matches the empty word and nothing else.
With an empty sequence in its place the grammar has the same owners, the same nullable
productions, the same calls and the same first sets. A walk over a tree comes across the
same, but for what it has to say about the directive.
-/

namespace BoundedLookahead

/-- What is picked out of a tree is picked from its root and from the trees below. -/
theorem Tree.filterMap_subtrees {β : Type} (pick : Tree → Option β) (id : NodeId) (location : Location)
    (expansion : Expansion Tree) : (Tree.node id location expansion).subtrees.filterMap pick =
      (pick (.node id location expansion)).toList ++
        expansion.children.flatMap fun child => child.subtrees.filterMap pick := by
  rw [subtrees_eq, List.filterMap_cons, List.filterMap_flatMap]
  cases pick (.node id location expansion) <;> rfl

/-- The first set of an expansion follows from those of its children. -/
theorem Expansion.first_congr {α : Type} {f g : α → Except AnalysisError FirstSet}
    {expansion : Expansion α} {sets : SetTable} {k : Nat}
    (h : ∀ child ∈ expansion.children, f child = g child) :
    expansion.first f sets k = expansion.first g sets k := by
  rw [← first_map (fun set => set) f, ← first_map (fun set => set) g, map_congr h]

section

variable {α : Type} {rule other : α → Rule} {items : List α}
  (name : ∀ item ∈ items, (rule item).name = (other item).name)

include name

/-- The search for nullable productions depends on the names of the rules and on what their
trees answer. -/
theorem closeNullable_congr
    (tried : ∀ item ∈ items, ∀ names, (rule item).tree.nullable? names = (other item).tree.nullable? names)
    (fuel : Nat) (names : List String) :
    closeNullable (items.map rule) fuel names = closeNullable (items.map other) fuel names := by
  have sweep (names : List String) :
      sweepNullable (items.map rule) names = sweepNullable (items.map other) names := by
    clear fuel
    induction items generalizing names with
    | nil => rfl
    | cons item items ih =>
      rw [List.forall_mem_cons] at name tried
      simp only [List.map_cons, sweepNullable, name.1, tried.1, ih name.2 tried.2]
  induction fuel generalizing names with
  | zero => rfl
  | succ fuel ih => simp only [closeNullable, sweep, ih]

/-- Solving for first sets depends on the names of the rules and on the first sets of their
trees. -/
theorem iterateFirst_congr {k limit : Nat} (solved : ∀ item ∈ items, ∀ sets,
      (rule item).tree.first sets k limit = (other item).tree.first sets k limit)
    (fuel rounds : Nat) (sets : SetTable) :
    iterateFirst (items.map rule) k limit fuel rounds sets =
      iterateFirst (items.map other) k limit fuel rounds sets := by
  have round (sets : SetTable) :
      firstRound (items.map rule) k limit sets = firstRound (items.map other) k limit sets := by
    have each (item : α) (hm : item ∈ items) : (do
        return ((rule item).name, ← (rule item).tree.first sets k limit) : Except AnalysisError _) = do
          return ((other item).name, ← (other item).tree.first sets k limit) := by
      rw [name item hm, solved item hm]
    simp only [firstRound, List.mapM_map, Function.comp_def, mapM_congr each]
  induction fuel generalizing rounds sets with
  | zero => rfl
  | succ fuel ih => simp only [iterateFirst, round, ih]

end

namespace Registry

/-- The grammar with an empty sequence in place of the construct of a node. -/
def emptied (registry : Registry) (id : NodeId) : Registry :=
  { registry with
    nodes := registry.nodes.modify id fun node => { node with expansion := .sequence [] } }

/-- The node is a directive with an amount, without predicate and without guard. -/
def IsAmount (registry : Registry) (id : NodeId) (amount : Nat) : Prop :=
  registry.expansion? id = some (.lookahead ⟨some amount, none, none⟩)

variable {registry : Registry} {id other : NodeId} {amount : Nat}

/-- Other nodes are left as they are. -/
theorem nodes_emptied_of_ne (h : other ≠ id) :
    (registry.emptied id).nodes[other]? = registry.nodes[other]? := by
  unfold emptied
  rw [Array.getElem?_modify, if_neg (Ne.symm h)]

/-- Their constructs are left as they are. -/
theorem expansion?_emptied_of_ne (h : other ≠ id) :
    (registry.emptied id).expansion? other = registry.expansion? other :=
  congrArg (Option.map _) (nodes_emptied_of_ne h)

/-- The node keeps its place. -/
theorem nodes_emptied_self {expansion : Expansion NodeId} {location : Location}
    (h : registry.nodes[id]? = some ⟨expansion, location⟩) :
    (registry.emptied id).nodes[id]? = some ⟨.sequence [], location⟩ := by
  unfold emptied
  rw [Array.getElem?_modify, if_pos rfl, h]
  rfl

theorem isDefined_emptied : (registry.emptied id).isDefined = registry.isDefined := rfl

/-- What is found alike in the trees of the productions makes the same graph. -/
theorem graphOf_emptied {found : Tree → List String}
    (same : ∀ production ∈ registry.productions,
      found ((registry.emptied id).tree production.root) = found (registry.tree production.root)) :
    (registry.emptied id).graphOf found = registry.graphOf found := by
  have rules (grammar : Registry) : grammar.graphOf found = grammar.productions.map fun production =>
      (production.name, (found (grammar.tree production.root)).eraseDups.filter grammar.isDefined) :=
    List.map_map
  rw [rules, rules]
  refine List.map_congr_left fun production hp => ?_
  rw [same production hp, isDefined_emptied]

namespace IsAmount

variable (h : registry.IsAmount id amount)

include h

/-- The node is in the arena. -/
theorem exists_node : ∃ location,
    registry.nodes[id]? = some ⟨.lookahead ⟨some amount, none, none⟩, location⟩ :=
  Registry.exists_node h

/-- Its construct is an empty sequence afterwards. -/
theorem expansion?_emptied_self : (registry.emptied id).expansion? id = some (.sequence []) := by
  obtain ⟨location, found⟩ := h.exists_node
  rw [expansion?, nodes_emptied_self found]
  rfl

/-- The directives of the emptied grammar are the other ones. -/
theorem expansion?_emptied_lookahead_iff {directive : Directive NodeId} :
    (registry.emptied id).expansion? other = some (.lookahead directive) ↔
      other ≠ id ∧ registry.expansion? other = some (.lookahead directive) := by
  by_cases same : other = id
  · subst same
    rw [h.expansion?_emptied_self]
    exact ⟨nofun, fun apart => absurd rfl apart.1⟩
  · rw [expansion?_emptied_of_ne same]
    exact (and_iff_right same).symm

/-- No node gains or loses a child. -/
theorem childIds_emptied : (registry.emptied id).childIds = registry.childIds := by
  funext other
  by_cases same : other = id
  · subst same
    obtain ⟨location, found⟩ := h.exists_node
    simp [childIds, nodes_emptied_self found, found, Expansion.children]
  · rw [childIds, childIds, nodes_emptied_of_ne same]

/-- The same is below a node. -/
theorem reaches_emptied : (registry.emptied id).Reaches = registry.Reaches := by
  have child : (registry.emptied id).Child = registry.Child := by
    funext parent other
    rw [Child, Child, h.childIds_emptied]
  rw [Reaches, Reaches, child]

/-- The ownership check has the same outcome. -/
theorem owners_emptied : (registry.emptied id).owners = registry.owners := by
  have claim : (registry.emptied id).claim = registry.claim := by
    funext owner owners other
    simp [claim, emptied]
  have settle (fuel : Nat) (pending : List NodeId) (owners : Owners) :
      (registry.emptied id).settle fuel pending owners = registry.settle fuel pending owners := by
    induction fuel generalizing pending owners with
    | zero => rfl
    | succ fuel ih =>
      cases pending with
      | nil => rfl
      | cons first pending => simp only [Registry.settle, claim, h.childIds_emptied, ih]
  have size : (registry.emptied id).nodes.size = registry.nodes.size := Array.size_modify
  have definition : (registry.emptied id).settleDefinition = registry.settleDefinition := by
    funext owners definition
    simp only [settleDefinition, claim, settle, size]
  simp only [owners, definition]
  rfl

/-- Grounded nodes stay grounded. -/
theorem grounded_emptied (hg : registry.Grounded other) : (registry.emptied id).Grounded other := by
  induction hg with
  | @node other entry found below ih =>
    by_cases same : other = id
    · subst same
      refine .node (nodes_emptied_self found) ?_
      simp [Expansion.children]
    · exact .node ((nodes_emptied_of_ne same).trans found) ih

/-- The trees of a grounded node in both grammars are walked together: they differ at the
directive only, where one has the directive and the other one an empty sequence. -/
theorem twin_induction {motive : NodeId → Tree → Tree → Prop}
    (leaf : ∀ location, registry.nodes[id]? = some ⟨.lookahead ⟨some amount, none, none⟩, location⟩ →
      motive id (.node id location (.lookahead ⟨some amount, none, none⟩))
        (.node id location (.sequence [])))
    (node : ∀ parent location expansion, parent ≠ id → registry.Grounded parent →
      registry.expansion? parent = some expansion →
      (∀ child ∈ expansion.children,
        motive child (registry.tree child) ((registry.emptied id).tree child)) →
      motive parent (.node parent location (expansion.map registry.tree))
        (.node parent location (expansion.map (registry.emptied id).tree)))
    (hg : registry.Grounded other) :
    motive other (registry.tree other) ((registry.emptied id).tree other) := by
  induction hg with
  | @node other entry found below ih =>
    obtain ⟨expansion, location⟩ := entry
    have he : registry.expansion? other = some expansion := by simp [expansion?, found]
    have hg : registry.Grounded other := .node found below
    rw [hg.tree_eq found]
    by_cases same : other = id
    · subst same
      obtain rfl := Option.some.inj (he.symm.trans h)
      rw [(h.grounded_emptied hg).tree_eq (nodes_emptied_self found)]
      exact leaf location found
    · rw [(h.grounded_emptied hg).tree_eq ((nodes_emptied_of_ne same).trans found)]
      exact node other location expansion same hg he ih

section

variable (hg : registry.Grounded other)

include hg

/-- Both trees bear the id of their node. -/
theorem id_emptied : ((registry.emptied id).tree other).id = (registry.tree other).id := by
  rw [hg.tree_id, (h.grounded_emptied hg).tree_id]

/-- Both were written in one place. -/
theorem location_emptied :
    ((registry.emptied id).tree other).location = (registry.tree other).location :=
  h.twin_induction (motive := fun _ tree twin => twin.location = tree.location)
    (fun _ _ => rfl) (fun _ location _ _ _ _ _ => (rfl : location = location)) hg

/-- Both can match the empty word, or neither can. -/
theorem nullable_emptied (names : List String) :
    ((registry.emptied id).tree other).nullable names = (registry.tree other).nullable names := by
  refine h.twin_induction (motive := fun _ tree twin => twin.nullable names = tree.nullable names)
    (fun _ _ => by simp only [Tree.nullable, Tree.allNullable]) (fun parent location expansion _ _ _ ih => ?_) hg
  cases expansion with
  | sequence units =>
    simp only [Expansion.map, Tree.nullable, Tree.allNullable_eq_all, List.all_map]
    rw [Bool.eq_iff_iff, List.all_eq_true, List.all_eq_true]
    exact forall₂_congr fun unit hu => by rw [Function.comp, Function.comp, ih unit hu]
  | choice alternatives =>
    simp only [Expansion.map, Tree.nullable, Tree.anyNullable_eq_any, List.any_map]
    rw [Bool.eq_iff_iff, List.any_eq_true, List.any_eq_true]
    exact exists_congr fun unit => and_congr_right fun hu => by
      rw [Function.comp, Function.comp, ih unit hu]
  | repetition kind body guard =>
    have hb := ih body (by simp [Expansion.children])
    cases kind <;> simp only [Expansion.map, Tree.nullable, hb]
  | tryBlock body handlers cleanup =>
    simp only [Expansion.map, Tree.nullable, ih body (by simp [Expansion.children])]
  | _ => simp only [Expansion.map, Tree.nullable]

/-- Both call the same productions on the left. -/
theorem leftCalls_emptied (names : List String) :
    ((registry.emptied id).tree other).leftCalls names = (registry.tree other).leftCalls names := by
  refine h.twin_induction (motive := fun _ tree twin => twin.leftCalls names = tree.leftCalls names)
    (fun _ _ => by simp only [Tree.leftCalls, Tree.unitLeftCalls]) (fun parent location expansion _ hp he ih => ?_) hg
  have below := hp.of_expansion he
  cases expansion with
  | sequence units =>
    have row : ∀ units' ⊆ units, Tree.unitLeftCalls names (units'.map (registry.emptied id).tree) =
        Tree.unitLeftCalls names (units'.map registry.tree) := by
      intro units' hs
      induction units' with
      | nil => rfl
      | cons unit units' ihu =>
        rw [List.cons_subset] at hs
        simp only [List.map_cons, Tree.unitLeftCalls, ih unit hs.1,
          h.nullable_emptied (below unit hs.1), ihu hs.2]
    simp only [Expansion.map, Tree.leftCalls, row units (List.Subset.refl _)]
  | choice alternatives =>
    simp only [Expansion.map, Tree.leftCalls, Tree.alternativeLeftCalls_eq_flatMap, List.flatMap_map]
    exact List.flatMap_congr ih
  | repetition kind body guard =>
    simp only [Expansion.map, Tree.leftCalls, ih body (by simp [Expansion.children])]
  | tryBlock body handlers cleanup =>
    simp only [Expansion.map, Tree.leftCalls, ih body (by simp [Expansion.children])]
  | _ => simp only [Expansion.map, Tree.leftCalls]

/-- Both call the same productions. -/
theorem calls_emptied : ((registry.emptied id).tree other).calls = (registry.tree other).calls := by
  refine h.twin_induction (motive := fun _ tree twin => twin.calls = tree.calls)
    (fun _ _ => rfl) (fun parent location expansion _ _ _ ih => ?_) hg
  unfold Tree.calls at ih ⊢
  rw [Tree.filterMap_subtrees, Tree.filterMap_subtrees, Expansion.children_map, Expansion.children_map,
    List.flatMap_map, List.flatMap_map, List.flatMap_congr ih]
  cases expansion <;> rfl

/-- Both have the same first set, given those of the productions. -/
theorem firstAt_emptied (sets : SetTable) (k limit : Nat) :
    (registry.emptied id).firstAt sets k limit other = registry.firstAt sets k limit other := by
  induction hg with
  | @node other entry found below ih =>
    obtain ⟨expansion, location⟩ := entry
    have he : registry.expansion? other = some expansion := by simp [expansion?, found]
    have hg : registry.Grounded other := .node found below
    rw [hg.firstAt_eq he]
    by_cases same : other = id
    · subst same
      obtain rfl := Option.some.inj (he.symm.trans h)
      rw [(h.grounded_emptied hg).firstAt_eq h.expansion?_emptied_self]
      rfl
    · rw [(h.grounded_emptied hg).firstAt_eq ((expansion?_emptied_of_ne same).trans he),
        Expansion.first_congr ih]

end

section

variable (roots : ∀ production ∈ registry.productions, registry.Grounded production.root)

include roots

/-- The same productions are found nullable. -/
theorem nullableNames_emptied : (registry.emptied id).nullableNames = registry.nullableNames := by
  have tried (production : Production) (hp : production ∈ registry.productions) (names : List String) :
      ((registry.emptied id).tree production.root).nullable? names =
        (registry.tree production.root).nullable? names := by
    have hg := roots production hp
    rw [Tree.nullable?_eq names _ hg.whole, Tree.nullable?_eq names _ (h.grounded_emptied hg).whole,
      h.nullable_emptied hg]
  exact @closeNullable_congr _ (registry.emptied id).ruleOf registry.ruleOf registry.productions
    (fun production _ => (rfl : production.name = production.name)) tried _ _

/-- The same cycles of left calls are found. -/
theorem leftRecursiveCycles_emptied (names : List String) :
    (registry.emptied id).leftRecursiveCycles names = registry.leftRecursiveCycles names := by
  rw [leftRecursiveCycles, leftRecursiveCycles, leftCallGraph_eq, leftCallGraph_eq,
    graphOf_emptied fun production hp => h.leftCalls_emptied (roots production hp) names]

/-- The same productions are found unused. -/
theorem unreachableDiagnostics_emptied (options : Options) :
    (registry.emptied id).unreachableDiagnostics options = registry.unreachableDiagnostics options := by
  have graph : (registry.emptied id).callGraph = registry.callGraph := by
    rw [callGraph_eq, callGraph_eq,
      graphOf_emptied fun production hp => h.calls_emptied (roots production hp)]
  have unused (start : String) : (registry.emptied id).unreachable start = registry.unreachable start := by
    simp only [unreachable, reachable, graph]
    rfl
  simp only [unreachableDiagnostics, unused]
  rfl

/-- Solving for first sets has the same outcome. -/
theorem solveFirst_emptied (limit k : Nat) :
    (registry.emptied id).solveFirst limit k = registry.solveFirst limit k :=
  @iterateFirst_congr _ (registry.emptied id).ruleOf registry.ruleOf registry.productions
    (fun production _ => (rfl : production.name = production.name)) k limit
    (fun production hp sets => h.firstAt_emptied (roots production hp) sets k limit) _ _ _

/-- A grounded node has the same first set. -/
theorem firstOf_emptied (hg : registry.Grounded other) (limit k : Nat) :
    (registry.emptied id).firstOf limit other k = registry.firstOf limit other k := by
  rw [hg.firstOf_eq, (h.grounded_emptied hg).firstOf_eq, h.solveFirst_emptied roots]
  simp only [h.firstAt_emptied hg]

end

end IsAmount

end Registry

end BoundedLookahead
