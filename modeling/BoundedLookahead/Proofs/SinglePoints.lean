import BoundedLookahead.Proofs.Parents
import BoundedLookahead.Proofs.UndisputedChoices
import Mathlib.Data.List.Flatten

/-!
# One point for a node

A walk decides the choices and repetitions of a tree in their order, each once. In an
arena whose ownership is in order no node occurs twice, so a point is the only one of its
node: the table holds its decision, and the warnings at the node are its warnings.
-/

namespace BoundedLookahead

/-- Whether the construct needs a decision: a choice does, and a repetition. -/
def Expansion.isDecided {α : Type} : Expansion α → Bool
  | .choice _ => true
  | .repetition _ _ _ => true
  | _ => false

namespace Tree

/-- Whether the construct at the root needs a decision. -/
def isDecided (tree : Tree) : Bool := tree.expansion?.any Expansion.isDecided

/-- The choices and repetitions of the tree, a parent before its children. -/
def decidedIds (tree : Tree) : List NodeId := (tree.subtrees.filter isDecided).map id

/-- The choices and repetitions of a node are itself, if it is one, and those of its
children. -/
theorem decidedIds_node (id : NodeId) (location : Location) (expansion : Expansion Tree) :
    (Tree.node id location expansion).decidedIds =
      (if expansion.isDecided then [id] else []) ++ expansion.children.flatMap decidedIds := by
  have below : (expansion.children.flatMap subtrees).filter isDecided =
      expansion.children.flatMap fun child => child.subtrees.filter isDecided :=
    List.filter_flatMap
  unfold decidedIds
  rw [subtrees_eq, List.filter_cons, children, below, ← List.map_flatMap]
  have root : (Tree.node id location expansion).isDecided = expansion.isDecided := rfl
  rw [root]
  split <;> rfl

/-- The choices and repetitions are among all nodes, in the same order. -/
theorem decidedIds_sublist (tree : Tree) : tree.decidedIds.Sublist tree.ids :=
  List.filter_sublist.map id

end Tree

namespace Registry

variable {registry : Registry} {limit : Nat} {scope : Scope} {final : Owners} {report : Report}
  {options : Options}

/-- The points of units are at what is decided in the units. -/
theorem nodes_of_visitUnits {units : List Tree}
    (visits : ∀ unit ∈ units, ∀ follow points,
      (registry.oracle limit).visit scope follow unit = .ok points →
        points.map (·.node) = unit.decidedIds)
    {follows : List FirstSet} {points : List Point}
    (h : (registry.oracle limit).visitUnits scope follows units = .ok points) :
    points.map (·.node) = units.flatMap Tree.decidedIds := by
  induction units generalizing follows points with
  | nil =>
    cases h
    rfl
  | cons unit units ih =>
    rw [List.forall_mem_cons] at visits
    obtain ⟨first, hf, h⟩ := bind_eq_ok.mp h
    obtain ⟨others, ho, h⟩ := bind_eq_ok.mp h
    cases h
    rw [List.map_append, List.flatMap_cons, visits.1 _ _ hf, ih visits.2 ho]

/-- The points of alternatives are at what is decided in the alternatives. -/
theorem nodes_of_visitAlternatives {alternatives : List Tree} {follow : FirstSet}
    (visits : ∀ alternative ∈ alternatives, ∀ points,
      (registry.oracle limit).visit scope follow alternative = .ok points →
        points.map (·.node) = alternative.decidedIds)
    {points : List Point}
    (h : (registry.oracle limit).visitAlternatives scope follow alternatives = .ok points) :
    points.map (·.node) = alternatives.flatMap Tree.decidedIds := by
  induction alternatives generalizing points with
  | nil =>
    cases h
    rfl
  | cons alternative alternatives ih =>
    rw [List.forall_mem_cons] at visits
    obtain ⟨first, hf, h⟩ := bind_eq_ok.mp h
    obtain ⟨others, ho, h⟩ := bind_eq_ok.mp h
    cases h
    rw [List.map_append, List.flatMap_cons, visits.1 _ hf, ih visits.2 ho]

/-- The points of a tree are at what is decided in the tree, in that order. -/
theorem nodes_of_visit {tree : Tree} {follow : FirstSet} {points : List Point}
    (h : (registry.oracle limit).visit scope follow tree = .ok points) :
    points.map (·.node) = tree.decidedIds := by
  induction tree using Tree.induction generalizing follow points with
  | stray id =>
    cases h
    rfl
  | node id location expansion ih =>
    rw [Tree.decidedIds_node]
    cases expansion with
    | sequence units =>
      obtain ⟨found, _, h⟩ := bind_eq_ok.mp h
      exact nodes_of_visitUnits (fun unit hu follow points h => ih unit hu h) h
    | choice alternatives =>
      obtain ⟨point, hp, h⟩ := bind_eq_ok.mp h
      obtain ⟨others, ho, h⟩ := bind_eq_ok.mp h
      cases h
      obtain ⟨_, _, _, _, _, _, rfl⟩ := choicePoint_eq_ok hp
      have inner := nodes_of_visitAlternatives (fun tree ht points h => ih tree ht h) ho
      rw [List.map_cons, inner]
      rfl
    | repetition kind body guard =>
      have hb : body ∈ (Expansion.repetition kind body guard).children := by
        simp [Expansion.children]
      cases guard with
      | none =>
        obtain ⟨point, hp, h⟩ := bind_eq_ok.mp h
        obtain ⟨next, _, h⟩ := bind_eq_ok.mp h
        obtain ⟨others, ho, h⟩ := bind_eq_ok.mp h
        cases h
        obtain ⟨_, _, _, _, _, _, rfl⟩ := loopPoint_eq_ok hp
        simp [Expansion.children, Expansion.isDecided, ih body hb ho]
      | some guard =>
        have hg : guard ∈ (Expansion.repetition kind body (some guard)).children := by
          simp [Expansion.children]
        obtain ⟨point, hp, h⟩ := bind_eq_ok.mp h
        obtain ⟨next, _, h⟩ := bind_eq_ok.mp h
        obtain ⟨guarded, hgu, h⟩ := bind_eq_ok.mp h
        obtain ⟨others, ho, h⟩ := bind_eq_ok.mp h
        cases h
        obtain ⟨_, _, _, _, _, _, rfl⟩ := loopPoint_eq_ok hp
        simp [Expansion.children, Expansion.isDecided, ih guard hg hgu, ih body hb ho]
    | lookahead directive =>
      obtain ⟨amount, predicate, _ | guard⟩ := directive
      · cases h
        rfl
      · have hg : guard ∈ (Expansion.lookahead ⟨amount, predicate, some guard⟩).children := by
          simp [Expansion.children]
        simp [Expansion.children, Expansion.isDecided, ih guard hg h]
    | tryBlock body handlers cleanup =>
      have hb : body ∈ (Expansion.tryBlock body handlers cleanup).children := by
        simp [Expansion.children]
      simp [Expansion.children, Expansion.isDecided, ih body hb h]
    | _ =>
      cases h
      rfl

/-- The points of productions are at what is decided in the trees of those that are not
blocked, production by production. -/
theorem nodes_of_resolveRules {nullable : List String} {rules : List Rule} {points : List Point}
    (h : (registry.oracle limit).resolveRules report options nullable rules = .ok points) :
    points.map (·.node) = (rules.filter fun rule => !report.isBlocked rule.name).flatMap
      fun rule => rule.tree.decidedIds := by
  induction rules generalizing points with
  | nil =>
    cases h
    rfl
  | cons rule rules ih =>
    simp only [Oracle.resolveRules] at h
    split at h
    · next blocked =>
      obtain ⟨_, _, h⟩ := bind_eq_ok.mp h
      obtain ⟨_, hn, h⟩ := bind_eq_ok.mp h
      cases hn
      obtain ⟨others, ho, h⟩ := bind_eq_ok.mp h
      cases h
      rw [List.filter_cons_of_neg (by simpa using blocked), List.nil_append, ih ho]
    · next unblocked =>
      obtain ⟨_, _, h⟩ := bind_eq_ok.mp h
      obtain ⟨inner, hi, h⟩ := bind_eq_ok.mp h
      obtain ⟨others, ho, h⟩ := bind_eq_ok.mp h
      cases h
      rw [List.filter_cons_of_pos (by simpa using unblocked), List.map_append, List.flatMap_cons,
        nodes_of_visit hi, ih ho]

/-- No two points are at one node. -/
theorem nodup_points (ho : registry.owners = .ok final) {points : List Point}
    (hp : registry.points report options = .ok points) : (points.map (·.node)).Nodup := by
  rw [nodes_of_resolveRules hp]
  refine List.Nodup.sublist ?_ (nodup_ids_rules ho)
  have decided := List.Sublist.flatMap_right (registry.rules.filter fun rule =>
    !report.isBlocked rule.name) fun rule _ => rule.tree.decidedIds_sublist
  exact decided.trans (List.filter_sublist.flatMap _)

/-- Points at one node are one point. -/
theorem point_eq_of_node_eq (ho : registry.owners = .ok final) {points : List Point}
    (hp : registry.points report options = .ok points) {point other : Point} (hm : point ∈ points)
    (hm' : other ∈ points) (same : point.node = other.node) : point = other :=
  List.inj_on_of_nodup_map (nodup_points ho hp) hm hm' same

/-- The table holds the decision of a point that is the only one of its node. -/
theorem get?_ofPoints {points : List Point} (nodup : (points.map (·.node)).Nodup) {point : Point}
    (hm : point ∈ points) :
    (Resolution.ofPoints points).decisions.get? point.node = some point.decision := by
  have distinct : (points.map fun point => (point.node, point.decision)).Pairwise
      fun a b => ¬compare a.1 b.1 = .eq := by
    rw [List.pairwise_map]
    refine (List.pairwise_map.mp nodup).imp fun {a b} hne he => ?_
    exact hne (Nat.compare_eq_eq.mp he)
  rw [Std.ExtTreeMap.get?_eq_getElem?]
  exact Std.ExtTreeMap.getElem?_ofList_of_mem Std.ReflCmp.compare_self distinct
    (List.mem_map_of_mem hm)

/-- The table holds the decisions of the points and no others. -/
theorem get?_ofPoints_iff {points : List Point} {id : NodeId} (nodup : (points.map (·.node)).Nodup)
    {decision : Decision} : (Resolution.ofPoints points).decisions.get? id = some decision ↔
      ∃ point ∈ points, point.node = id ∧ point.decision = decision := by
  refine ⟨exists_point_of_get?, ?_⟩
  rintro ⟨point, hm, rfl, rfl⟩
  exact get?_ofPoints nodup hm

/-- The warnings at a node are those of its point. -/
theorem warningsAt_eq_warnings (ho : registry.owners = .ok final)
    (hr : registry.validated options = .ok report) {points : List Point}
    (hp : registry.points report options = .ok points) {point : Point} (hm : point ∈ points) :
    registry.warningsAt options point.node = point.warnings := by
  have nodup := nodup_points ho hp
  rw [warningsAt_eq hr hp]
  clear hp
  induction points with
  | nil => cases hm
  | cons first points ih =>
    rw [List.map_cons, List.nodup_cons] at nodup
    by_cases same : first.node = point.node
    · have alone : points.filter (fun other => other.node == point.node) = [] := by
        refine List.filter_eq_nil_iff.mpr fun other ho he => nodup.1 ?_
        rw [same, ← beq_iff_eq.mp he]
        exact List.mem_map_of_mem ho
      have this : point = first := by
        refine (List.mem_cons.mp hm).resolve_right fun hm => nodup.1 ?_
        rw [same]
        exact List.mem_map_of_mem hm
      rw [List.filter_cons_of_pos (by simpa using same), alone, this]
      simp
    · have later : point ∈ points := by
        refine (List.mem_cons.mp hm).resolve_left fun he => same ?_
        rw [he]
      rw [List.filter_cons_of_neg (by simpa using same)]
      exact ih later nodup.2

/-- A point decides its node, in the tree of a production that is not blocked. -/
theorem exists_production_decides
    (grounded : ∀ production ∈ registry.productions, registry.Grounded production.root)
    {points : List Point} {point : Point}
    (hp : registry.points report options = .ok points) (hm : point ∈ points) :
    ∃ production ∈ registry.productions, report.isBlocked production.name = false ∧
      registry.Reaches production.root point.node ∧
      registry.Decides options.expansionLimit
        (options.scope report.nullable production.name (registry.tree production.root))
        (registry.tree point.node) point := by
  obtain ⟨rule, hrule, unblocked, below, hb, decides⟩ := exists_rule_decides hp hm
  obtain ⟨production, hprod, rfl⟩ := mem_rules.mp hrule
  obtain ⟨node, reached, rfl⟩ := (grounded production hprod).mem_subtrees.mp hb
  have same : point.node = node := by
    rw [decides.node_eq, ((grounded production hprod).of_reaches reached).tree_id]
  rw [same]
  exact ⟨production, hprod, unblocked, reached, decides⟩

end Registry

end BoundedLookahead
