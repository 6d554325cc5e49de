import BoundedLookahead.Proofs.SinglePoints
import BoundedLookahead.Proofs.Stages

/-!
# Slots

Validation hands a slot down a tree: to the children of a choice or of a repetition the
slot of a decision, to the first unit of a sequence the slot of the sequence, and a plain
slot to everything else. The directives that it finds misplaced are those that it meets in
a plain slot. In an arena whose ownership is in order there is one way to each node, so
there it meets each node in one slot.
-/

namespace BoundedLookahead

/-- The children of a construct that stands in the slot, each with its own slot. -/
def Expansion.slots (slot : Slot) : Expansion NodeId → List (NodeId × Slot)
  | .sequence [] => []
  | .sequence (first :: rest) => (first, slot) :: rest.map fun unit => (unit, .plain)
  | .lookahead directive => directive.guard.toList.map fun guard => (guard, .plain)
  | .tryBlock body _ _ => [(body, .plain)]
  | expansion => expansion.children.map fun child => (child, .decision)

/-- Every child has its slot, in the order of the children. -/
theorem Expansion.map_fst_slots (slot : Slot) (expansion : Expansion NodeId) :
    (expansion.slots slot).map Prod.fst = expansion.children := by
  cases expansion with
  | sequence units => cases units <;> simp [slots, children, Function.comp_def]
  | _ => simp [slots, children, Function.comp_def]

/-- Whether the construct is an explicit lookahead. -/
def Expansion.isDirective {α : Type} : Expansion α → Bool
  | .lookahead _ => true
  | _ => false

namespace Registry

variable {registry : Registry} {options : Options} {names : List String} {id node : NodeId}
  {slot : Slot} {kind : DiagnosticKind}

/-- The node is an explicit lookahead. -/
def IsDirective (registry : Registry) (node : NodeId) : Prop :=
  ∃ directive, registry.expansion? node = some (.lookahead directive)

/-- What the construct of a node tells about that. -/
theorem isDirective_iff {expansion : Expansion NodeId} (he : registry.expansion? node = some expansion) :
    registry.IsDirective node ↔ expansion.isDirective = true := by
  unfold IsDirective
  rw [he]
  cases expansion <;> simp [Expansion.isDirective]

/-- From a node in its slot validation goes on to a child in the slot of that. -/
def Hands (registry : Registry) (parent child : NodeId × Slot) : Prop :=
  ∃ expansion, registry.expansion? parent.1 = some expansion ∧ child ∈ expansion.slots parent.2

/-- Starting from a node in its slot validation meets another one in a slot. -/
abbrev Meets (registry : Registry) : NodeId × Slot → NodeId × Slot → Prop :=
  Relation.ReflTransGen registry.Hands

/-- Where a node was written. -/
def locationOf (registry : Registry) (id : NodeId) : Location :=
  ((registry.nodes[id]?).map (·.location)).getD {}

/-- The finding that a directive steers no decision. -/
def misplacedAt (registry : Registry) (id : NodeId) : Finding :=
  ⟨id, registry.locationOf id, .misplaced⟩

/-- What validation finds wrong with a node before it goes on to the children. -/
def problemsBefore (registry : Registry) (options : Options) (slot : Slot) :
    Expansion NodeId → List Problem
  | .terminal kind => if registry.isDeclared kind then [] else [.undeclared kind]
  | .nonTerminal name args => (registry.callProblem? name args.length).toList
  | .lookahead directive => options.directiveProblems slot directive
  | _ => []

/-- What it finds wrong with a node when it is through with the children. -/
def problemsAfter (registry : Registry) (names : List String) : Expansion NodeId → List Problem
  | .repetition kind body _ =>
    if (registry.tree body).nullable names then [.emptyBody kind] else []
  | _ => []

/-- What it finds before is no problem of a body. -/
theorem kind_of_mem_problemsBefore {problem : Problem} {expansion : Expansion NodeId}
    (h : problem ∈ registry.problemsBefore options slot expansion) :
    problem.kind ≠ .emptyRepetition := by
  cases expansion with
  | terminal kind =>
    simp only [problemsBefore] at h
    split at h
    · cases h
    · simp [List.mem_singleton.mp h, Problem.kind]
  | nonTerminal name args =>
    simp only [problemsBefore, Option.mem_toList, callProblem?] at h
    split at h
    · cases h
      simp [Problem.kind]
    · split at h
      · cases h
      · cases h
        simp [Problem.kind]
  | lookahead directive =>
    simp only [problemsBefore, Options.directiveProblems] at h
    rcases List.mem_append.mp h with h | h <;> split at h
    · simp [List.mem_singleton.mp h, Problem.kind]
    · cases h
    · cases h
    · simp [List.mem_singleton.mp h, Problem.kind]
  | _ => cases h

/-- The findings of problems at a node. -/
def findingsAt (registry : Registry) (id : NodeId) (problems : List Problem) : List Finding :=
  problems.map fun problem => ⟨id, registry.locationOf id, problem⟩

/-- What a walk from a node in its slot comes across. -/
def observationsFrom (registry : Registry) (options : Options) (names : List String)
    (start : NodeId × Slot) : List Observation :=
  (registry.tree start.1).observations registry options names start.2

/-- The findings of a kind that a walk from a node in its slot observes. -/
def findingsFrom (registry : Registry) (options : Options) (names : List String)
    (kind : DiagnosticKind) (start : NodeId × Slot) : List Finding :=
  (registry.observationsFrom options names start).filterMap (Observation.ofKind? kind)

/-- The misplaced directives that a walk from a node in its slot observes. -/
def misplacedFrom (registry : Registry) (options : Options) (names : List String)
    (start : NodeId × Slot) : List Finding :=
  registry.findingsFrom options names .misplacedLookahead start

/-- Trees in a row are walked one by one, the first of them in a slot of its own. -/
theorem listObservations_eq (first rest : Slot) (ids : List NodeId) :
    Tree.listObservations registry options names first rest (ids.map registry.tree) =
      ((ids.head?.toList.map fun id => (id, first)) ++ ids.tail.map fun id => (id, rest)).flatMap
        (registry.observationsFrom options names) := by
  induction ids generalizing first with
  | nil => rfl
  | cons id ids ih =>
    have behind : ((ids.head?.toList.map fun id => (id, rest)) ++ ids.tail.map fun id => (id, rest)) =
        ids.map fun id => (id, rest) := by
      cases ids <;> rfl
    rw [List.map_cons, Tree.listObservations, ih rest, behind]
    rfl

/-- A walk comes across what is wrong with the node itself and with everything below it. -/
theorem Grounded.observationsFrom_eq {expansion : Expansion NodeId} (h : registry.Grounded id)
    (he : registry.expansion? id = some expansion) :
    registry.observationsFrom options names (id, slot) =
      (registry.findingsAt id (registry.problemsBefore options slot expansion)).map .finding ++
        ((expansion.slots slot).flatMap (registry.observationsFrom options names) ++
          (registry.findingsAt id (registry.problemsAfter names expansion)).map .finding) := by
  obtain ⟨location, found⟩ := exists_node he
  have located : registry.locationOf id = location := by simp [locationOf, found]
  rw [observationsFrom, h.tree_eq found]
  unfold findingsAt
  rw [located]
  cases expansion with
  | terminal kind =>
    simp only [Expansion.map, Tree.observations, problemsBefore]
    split <;> rfl
  | nonTerminal name args =>
    simp [Expansion.map, Tree.observations, problemsBefore, problemsAfter, Expansion.slots,
      Expansion.children, Function.comp_def]
  | sequence units =>
    refine (listObservations_eq slot .plain units).trans ?_
    cases units <;> simp [problemsBefore, problemsAfter, Expansion.slots]
  | choice alternatives =>
    refine (listObservations_eq .decision .decision alternatives).trans ?_
    cases alternatives <;>
      simp [problemsBefore, problemsAfter, Expansion.slots, Expansion.children]
  | repetition kind body guard =>
    cases guard <;> cases hn : (registry.tree body).nullable names <;>
      simp [Expansion.map, Tree.observations, problemsBefore, problemsAfter, Expansion.slots,
        Expansion.children, observationsFrom, hn]
  | lookahead directive =>
    obtain ⟨amount, predicate, guard⟩ := directive
    cases guard <;>
      simp [Expansion.map, Tree.observations, problemsBefore, problemsAfter, Expansion.slots,
        observationsFrom, Options.directiveProblems, Function.comp_def]
  | action code => rfl
  | tryBlock body handlers cleanup =>
    simp [Expansion.map, Tree.observations, problemsBefore, problemsAfter, Expansion.slots,
      observationsFrom]

/-- What is found at a node counts among the findings of a kind where the problem is of
that kind. -/
theorem filterMap_findingsAt (kind : DiagnosticKind) (problems : List Problem) :
    ((registry.findingsAt id problems).map .finding).filterMap (Observation.ofKind? kind) =
      registry.findingsAt id (problems.filter (·.kind == kind)) := by
  unfold findingsAt
  induction problems with
  | nil => rfl
  | cons problem problems ih =>
    by_cases hk : problem.kind = kind
    · rw [List.filter_cons_of_pos (by simpa using hk)]
      simp only [List.map_cons, List.filterMap_cons, Observation.ofKind?, if_pos hk, ih]
    · rw [List.filter_cons_of_neg (by simpa using hk)]
      simp only [List.map_cons, List.filterMap_cons, Observation.ofKind?, if_neg hk, ih]

/-- The findings of a kind below a node are its own problems of that kind and the findings
below its children. -/
theorem Grounded.findingsFrom_eq {expansion : Expansion NodeId} (h : registry.Grounded id)
    (he : registry.expansion? id = some expansion) (kind : DiagnosticKind) :
    registry.findingsFrom options names kind (id, slot) =
      registry.findingsAt id
          ((registry.problemsBefore options slot expansion).filter (·.kind == kind)) ++
        ((expansion.slots slot).flatMap (registry.findingsFrom options names kind) ++
          registry.findingsAt id
            ((registry.problemsAfter names expansion).filter (·.kind == kind))) := by
  rw [findingsFrom, h.observationsFrom_eq he, List.filterMap_append, List.filterMap_append,
    filterMap_findingsAt, filterMap_findingsAt, List.filterMap_flatMap]
  rfl

/-- A child in its slot is a child. -/
theorem child_of_mem_slots {expansion : Expansion NodeId} {child : NodeId × Slot}
    (h : child ∈ expansion.slots slot) : child.1 ∈ expansion.children := by
  rw [← expansion.map_fst_slots slot]
  exact List.mem_map_of_mem h

/-- Validation goes on to children. -/
theorem Hands.child {parent child : NodeId × Slot} (h : registry.Hands parent child) :
    registry.Child parent.1 child.1 := by
  obtain ⟨expansion, he, hc⟩ := h
  rw [Child, childIds_eq he]
  exact child_of_mem_slots hc

/-- Whatever validation meets is below the node it started from. -/
theorem Meets.reaches {start stop : NodeId × Slot} (h : registry.Meets start stop) :
    registry.Reaches start.1 stop.1 :=
  h.lift Prod.fst fun _ _ step => step.child

/-- It meets everything below that node. -/
theorem Grounded.exists_meets (h : registry.Grounded id) (reached : registry.Reaches id node)
    (slot : Slot) : ∃ other, registry.Meets (id, slot) (node, other) := by
  induction reached with
  | refl => exact ⟨slot, .refl⟩
  | @tail parent child above step ih =>
    obtain ⟨other, met⟩ := ih
    obtain ⟨expansion, he, _⟩ := (h.of_reaches above).exists_expansion
    rw [Child, childIds_eq he, ← expansion.map_fst_slots other] at step
    obtain ⟨entry, hm, rfl⟩ := List.mem_map.mp step
    exact ⟨entry.2, met.tail ⟨expansion, he, hm⟩⟩

/-- A walk finds the problems of a kind that the nodes have in the slots in which it meets
them. -/
theorem Grounded.mem_findingsFrom_iff_meets (h : registry.Grounded id) {finding : Finding} :
    finding ∈ registry.findingsFrom options names kind (id, slot) ↔
      finding.problem.kind = kind ∧ finding.location = registry.locationOf finding.node ∧
        ∃ place expansion, registry.Meets (id, slot) (finding.node, place) ∧
          registry.expansion? finding.node = some expansion ∧
          (finding.problem ∈ registry.problemsBefore options place expansion ∨
            finding.problem ∈ registry.problemsAfter names expansion) := by
  have found {id : NodeId} {problems : List Problem} :
      finding ∈ registry.findingsAt id (problems.filter (·.kind == kind)) ↔
        finding.problem.kind = kind ∧ finding.node = id ∧
          finding.location = registry.locationOf id ∧ finding.problem ∈ problems := by
    obtain ⟨node, location, problem⟩ := finding
    simp only [findingsAt, List.mem_map, List.mem_filter, beq_iff_eq, Finding.mk.injEq]
    constructor
    · rintro ⟨problem, ⟨hm, hk⟩, rfl, rfl, rfl⟩
      exact ⟨hk, rfl, rfl, hm⟩
    · rintro ⟨hk, rfl, rfl, hm⟩
      exact ⟨problem, ⟨hm, hk⟩, rfl, rfl, rfl⟩
  induction h generalizing slot with
  | @node id entry present below ih =>
    have he : registry.expansion? id = some entry.expansion := by simp [expansion?, present]
    rw [Grounded.findingsFrom_eq (.node present below) he kind, List.mem_append, List.mem_append,
      List.mem_flatMap, found, found]
    constructor
    · rintro (⟨kept, rfl, located, hm⟩ | ⟨child, hc, hm⟩ | ⟨kept, rfl, located, hm⟩)
      · exact ⟨kept, located, slot, _, .refl, he, .inl hm⟩
      · obtain ⟨kept, located, place, expansion, met, rest⟩ :=
          (ih child.1 (child_of_mem_slots hc)).mp hm
        exact ⟨kept, located, place, expansion, .head ⟨_, he, hc⟩ met, rest⟩
      · exact ⟨kept, located, slot, _, .refl, he, .inr hm⟩
    · rintro ⟨kept, located, place, expansion, met, he', hm⟩
      rcases met.cases_head with same | ⟨child, ⟨expansion', he'', hc⟩, met⟩
      · obtain ⟨rfl, rfl⟩ := Prod.mk.inj same
        obtain rfl : entry.expansion = expansion := Option.some.inj (he.symm.trans he')
        exact hm.imp (fun hm => ⟨kept, rfl, located, hm⟩) fun hm => .inr ⟨kept, rfl, located, hm⟩
      · obtain rfl : entry.expansion = expansion' := Option.some.inj (he.symm.trans he'')
        exact .inr (.inl ⟨child, hc, (ih child.1 (child_of_mem_slots hc)).mpr
          ⟨kept, located, place, expansion, met, he', hm⟩⟩)

/-- A directive is out of place in a plain slot, and nothing else is. -/
theorem misplaced_mem_problems_iff {expansion : Expansion NodeId} :
    (Problem.misplaced ∈ registry.problemsBefore options slot expansion ∨
      Problem.misplaced ∈ registry.problemsAfter names expansion) ↔
        expansion.isDirective = true ∧ slot = .plain := by
  cases expansion with
  | terminal kind =>
    simp only [problemsBefore, problemsAfter, Expansion.isDirective]
    split <;> simp
  | nonTerminal name args =>
    simp only [problemsBefore, problemsAfter, Expansion.isDirective, callProblem?]
    split
    · simp
    · split <;> simp
  | repetition kind body guard =>
    simp only [problemsBefore, problemsAfter, Expansion.isDirective]
    split <;> simp
  | lookahead directive =>
    simp only [problemsBefore, problemsAfter, Expansion.isDirective, Options.directiveProblems]
    cases slot <;> split <;> simp
  | _ => simp [problemsBefore, problemsAfter, Expansion.isDirective]

/-- A walk finds the directives that it meets in a plain slot to be misplaced. -/
theorem Grounded.mem_misplacedFrom (h : registry.Grounded id) {found : Finding} :
    found ∈ registry.misplacedFrom options names (id, slot) ↔
      ∃ node, registry.Meets (id, slot) (node, .plain) ∧ registry.IsDirective node ∧
        found = registry.misplacedAt node := by
  rw [misplacedFrom, h.mem_findingsFrom_iff_meets]
  constructor
  · obtain ⟨node, location, problem⟩ := found
    rintro ⟨kept, located, place, expansion, met, he, hm⟩
    obtain rfl : location = registry.locationOf node := located
    obtain rfl : problem = .misplaced := by
      cases problem with
      | misplaced => rfl
      | emptyBody kind => cases kind <;> cases kept
      | _ => cases kept
    obtain ⟨directive, rfl⟩ := misplaced_mem_problems_iff.mp hm
    exact ⟨node, met, (isDirective_iff he).mpr directive, rfl⟩
  · rintro ⟨node, met, ⟨directive, he⟩, rfl⟩
    exact ⟨rfl, rfl, .plain, _, met, he, misplaced_mem_problems_iff.mpr ⟨rfl, rfl⟩⟩

/-- At a node validation finds no two problems of one kind. -/
theorem nodup_kinds (options : Options) (names : List String) (slot : Slot)
    (expansion : Expansion NodeId) :
    ((registry.problemsBefore options slot expansion ++
      registry.problemsAfter names expansion).map Problem.kind).Nodup := by
  cases expansion with
  | terminal kind =>
    simp only [problemsBefore, problemsAfter]
    split <;> simp
  | nonTerminal name args =>
    simp only [problemsBefore, problemsAfter]
    cases registry.callProblem? name args.length <;> simp
  | lookahead directive =>
    simp only [problemsBefore, problemsAfter, Options.directiveProblems]
    cases slot <;> split <;> simp [Problem.kind]
  | repetition kind body guard =>
    simp only [problemsBefore, problemsAfter]
    split <;> simp
  | _ => exact List.nodup_nil

/-- A walk finds a problem of a kind at a node no more often than the tree has the node. -/
theorem Grounded.nodes_findingsFrom (h : registry.Grounded id) :
    ((registry.findingsFrom options names kind (id, slot)).map (·.node)).Subperm
      (registry.tree id).ids := by
  induction h generalizing slot with
  | @node id entry found below ih =>
    have he : registry.expansion? id = some entry.expansion := by simp [expansion?, found]
    have h : registry.Grounded id := .node found below
    have nodes (problems : List Problem) :
        (registry.findingsAt id problems).map (·.node) = List.replicate problems.length id := by
      simp [findingsAt, Function.comp_def]
    have single := List.nodup_iff_count_le_one.mp
      (registry.nodup_kinds options names slot entry.expansion) kind
    rw [List.count_eq_countP, List.countP_map, List.countP_eq_length_filter, List.filter_append,
      List.length_append] at single
    have row (children : List (NodeId × Slot)) (hc : children ⊆ entry.expansion.slots slot) :
        ((children.flatMap (registry.findingsFrom options names kind)).map (·.node)).Subperm
          ((children.map Prod.fst).flatMap fun child => (registry.tree child).ids) := by
      induction children with
      | nil => exact .refl _
      | cons child children rest =>
        rw [List.cons_subset] at hc
        rw [List.flatMap_cons, List.map_append, List.map_cons, List.flatMap_cons]
        exact (ih child.1 (child_of_mem_slots hc.1)).append (rest hc.2)
    have children := row _ (List.Subset.refl _)
    rw [entry.expansion.map_fst_slots] at children
    have own {n : Nat} (hn : n ≤ 1) : (List.replicate n id).Subperm [id] :=
      ((List.replicate_sublist_replicate id).mpr hn).subperm
    rw [h.findingsFrom_eq he, h.ids_eq he, ← List.singleton_append]
    have order {before after : Nat} {others : List NodeId} :
        (List.replicate (before + after) id ++ others).Perm
          (List.replicate before id ++ (others ++ List.replicate after id)) := by
      rw [← List.replicate_append_replicate, List.append_assoc]
      exact List.perm_append_comm.append_left _
    simp only [List.map_append, nodes]
    exact order.symm.subperm.trans ((own single).append children)

section

variable {final : Owners} (ho : registry.owners = .ok final)

include ho

/-- From the root of a production validation meets each node in one slot. -/
theorem Meets.unique {production : Production} (hp : production ∈ registry.productions)
    {stop other : NodeId × Slot} (h : registry.Meets (production.root, .plain) stop)
    (h' : registry.Meets (production.root, .plain) other) (same : stop.1 = other.1) :
    stop = other := by
  have inside {parent : NodeId × Slot} (h : registry.Meets (production.root, .plain) parent) :
      registry.InProduction parent.1 := ⟨production, hp, h.reaches⟩
  have notRoot {parent child : NodeId × Slot} (above : registry.Meets (production.root, .plain) parent)
      (step : registry.Hands parent child) : child.1 ≠ production.root :=
    fun root => (inside above).not_child_root ho hp (root ▸ step.child)
  induction h generalizing other with
  | refl =>
    rcases h'.cases_tail with rfl | ⟨parent, above, step⟩
    · rfl
    · exact absurd same.symm (notRoot above step)
  | @tail parent child above step ih =>
    rcases h'.cases_tail with rfl | ⟨parent', above', step'⟩
    · exact absurd same (notRoot above step)
    · obtain rfl : parent = parent' :=
        ih above' ((inside above).parent_eq ho (inside above') step.child (same ▸ step'.child))
      obtain ⟨expansion, he, hc⟩ := step
      obtain ⟨expansion', he', hc'⟩ := step'
      obtain rfl : expansion = expansion' := Option.some.inj (he.symm.trans he')
      have distinct : ((expansion.slots parent.2).map Prod.fst).Nodup := by
        rw [expansion.map_fst_slots, ← childIds_eq he]
        exact (inside above).nodup_childIds ho
      exact List.inj_on_of_nodup_map distinct hc hc' same

/-- From the root of a production a walk finds a problem of a kind at a node once. -/
theorem nodup_findingsFrom {production : Production} (hp : production ∈ registry.productions) :
    ((registry.findingsFrom options names kind (production.root, .plain)).map (·.node)).Nodup := by
  obtain ⟨nodes, order, below⟩ := (grounded_production ho production hp).nodes_findingsFrom
  exact order.nodup_iff.mp (((InProduction.root hp).nodup_ids ho).sublist below)

end

end Registry

end BoundedLookahead
