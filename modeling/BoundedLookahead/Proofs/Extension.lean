import BoundedLookahead.Proofs.Inheritance
import BoundedLookahead.Proofs.SinglePoints
import BoundedLookahead.Proofs.Statuses

/-!
# Adding a production that nothing calls

A grammar whose trees stand in its own arena is part of every grammar that has more nodes
and one more production, as long as none of its nodes calls the new production. What an
analysis of the larger grammar says of the old productions is then all that an analysis
of the smaller one says.
-/

namespace BoundedLookahead

/-- Without the reports on one production those on other productions stay. -/
theorem Diagnostic.filter_others {name : String} {diagnostics : List Diagnostic}
    (h : ∀ diagnostic ∈ diagnostics, diagnostic.production ≠ name) :
    diagnostics.filter (·.production != name) = diagnostics :=
  List.filter_eq_self.mpr fun diagnostic hd => bne_iff_ne.mpr (h diagnostic hd)

/-- Without the reports on one production none on that production stays. -/
theorem Diagnostic.filter_own {name : String} {diagnostics : List Diagnostic}
    (h : ∀ diagnostic ∈ diagnostics, diagnostic.production = name) :
    diagnostics.filter (·.production != name) = [] :=
  List.filter_eq_nil_iff.mpr fun diagnostic hd => by simp [h diagnostic hd]

namespace Registry

/-- The grammar with nodes allocated after its own and one more production. -/
def extended (registry : Registry) (more : List Node) (extra : Production) : Registry :=
  (more.foldl addNode registry).addProduction extra

/-- The new production has a name of its own that no node of the grammar calls, and its
tree consists of new nodes. It may call the productions of the grammar. -/
structure Uncalled (registry : Registry) (more : List Node) (extra : Production) : Prop where
  /-- No definition has its name. -/
  new : extra.name ∉ registry.names
  /-- No node calls it. -/
  uncalled : ∀ node ∈ registry.nodes, ∀ args, node.expansion ≠ .nonTerminal extra.name args
  /-- Its tree has none of the old nodes. -/
  apart : ∀ id, (registry.extended more extra).Reaches extra.root id → registry.nodes.size ≤ id

section

variable {registry : Registry} {more : List Node} {extra : Production}

/-- Nodes are allocated behind those that are there, and nothing else changes. -/
theorem foldl_addNode : more.foldl addNode registry =
    { registry with nodes := registry.nodes ++ more.toArray } := by
  induction more generalizing registry with
  | nil => simp
  | cons node more ih =>
    rw [List.foldl_cons, ih]
    simp [addNode]

/-- The old nodes are as they were. -/
theorem nodes_extended {id : NodeId} (h : id < registry.nodes.size) :
    (registry.extended more extra).nodes[id]? = registry.nodes[id]? := by
  rw [extended, addProduction_nodes, foldl_addNode]
  exact Array.getElem?_append_left h

namespace Uncalled

variable (h : registry.Uncalled more extra)

include h

/-- The new production is the last one. -/
theorem productions_extended :
    (registry.extended more extra).productions = registry.productions ++ [extra] := by
  have new := h.new
  rw [extended, foldl_addNode]
  exact addProduction_productions new

/-- The later definitions are as they were. -/
theorem duplicates_extended : (registry.extended more extra).duplicates = registry.duplicates := by
  have new := h.new
  rw [extended, foldl_addNode]
  exact addProduction_duplicates new

/-- An old production has another name. -/
theorem name_ne {production : Production} (hp : production ∈ registry.productions) :
    production.name ≠ extra.name := fun same => h.new (same ▸ List.mem_map_of_mem hp)

/-- What has another name is defined when it was. -/
theorem isDefined_extended {name : String} (other : name ≠ extra.name) :
    (registry.extended more extra).isDefined name = registry.isDefined name := by
  rw [Bool.eq_iff_iff, isDefined_iff, isDefined_iff, names, h.productions_extended]
  simp [names, other]

/-- A grammar whose trees stand in its arena is part of the larger one. -/
theorem partOf (closed : ∀ id, registry.InDefinition id → id < registry.nodes.size) :
    registry.PartOf (registry.extended more extra) where
  productions := by
    rw [h.productions_extended]
    exact (List.sublist_append_left _ _).subperm
  duplicates := h.duplicates_extended.symm
  nodes id inside := (nodes_extended (closed id inside)).symm
  calls id name args inside he defined := by
    obtain ⟨location, found⟩ := exists_node he
    have other : name ≠ extra.name := by
      rintro rfl
      exact h.uncalled _ (Array.mem_of_getElem? found) args rfl
    rwa [h.isDefined_extended other] at defined
  tokens kind := by
    rw [isDeclared, isDeclared, extended, addProduction_tokens, foldl_addNode]

section

variable (closed : ∀ id, registry.InDefinition id → id < registry.nodes.size)
  (grounded : ∀ production ∈ (registry.extended more extra).productions,
    (registry.extended more extra).Grounded production.root)
  {names names' : List String} (hn : registry.nullableNames = .ok names)
  (hn' : (registry.extended more extra).nullableNames = .ok names') {options : Options}

include closed grounded hn hn'

/-- In the old productions the same is found. -/
theorem exists_foundIn {found' : List (Production × List Finding)}
    (hf : (registry.extended more extra).foundIn options names' = .ok found') :
    ∃ found findings, registry.foundIn options names = .ok found ∧
      found' = found ++ [(extra, findings)] := by
  rw [Registry.foundIn_eq, h.productions_extended, mapM_concat_eq_ok] at hf
  obtain ⟨found, last, hf, hl, rfl⟩ := hf
  obtain ⟨findings, _, hl⟩ := bind_eq_ok.mp hl
  cases hl
  exact ⟨found, findings, ((h.partOf closed).foundIn_eq grounded hn hn').trans hf, rfl⟩

/-- The nodes of the old productions are resolved as before. -/
theorem exists_points {report report' : Report} (known : report.nullable = names)
    (known' : report'.nullable = names')
    (blocked : ∀ name, name ≠ extra.name → report'.isBlocked name = report.isBlocked name)
    {points' : List Point} (hp : (registry.extended more extra).points report' options = .ok points') :
    ∃ points added, registry.points report options = .ok points ∧
      (registry.extended more extra).pointsOf report' options
        ((registry.extended more extra).ruleOf extra) = .ok added ∧
      points' = points ++ added := by
  obtain ⟨parts, resolved, rfl⟩ := Registry.points_eq_ok.mp hp
  rw [h.productions_extended, mapM_concat_eq_ok] at resolved
  obtain ⟨parts, added, resolved, ha, rfl⟩ := resolved
  refine ⟨parts.flatten, added, ?_, ha, by simp⟩
  exact (h.partOf closed).points_eq_ok grounded hn hn' known known'
    (fun production hm => (blocked production.name (h.name_ne hm)).symm) resolved

end

/-- The status of a production of another name is as it was. -/
theorem status?_extended (closed : ∀ id, registry.InDefinition id → id < registry.nodes.size)
    {options : Options} {names names' : List String} (found : List (Production × List Finding))
    (findings : List Finding) {name : String} (other : name ≠ extra.name) :
    ((registry.extended more extra).reportOf options names' (found ++ [(extra, findings)])).status? name =
      (registry.reportOf options names found).status? name := by
  have last : (extra.name == name) = false := beq_eq_false_iff_ne.mpr other.symm
  rw [status?_reportOf, status?_reportOf, (h.partOf closed).statusOf_eq]
  simp [List.find?_append, last]

/-- Later definitions are reported as before. -/
theorem duplicateDiagnostics_extended :
    (registry.extended more extra).duplicateDiagnostics = registry.duplicateDiagnostics := by
  unfold duplicateDiagnostics
  rw [h.duplicates_extended]
  refine List.map_congr_left fun later hl => ?_
  obtain ⟨first, hf, same⟩ := List.mem_map.mp (registry.duplicates_defined later hl)
  have before := production?_eq_some hf
  have after := @production?_eq_some (registry.extended more extra) first
    (by rw [h.productions_extended]; exact List.mem_append_left _ hf)
  rw [← same, before, after]

variable {options : Options} (nonempty : registry.productions ≠ [])
  (start : options.start ≠ some extra.name)

include start

/-- A named start production is reported as before. -/
theorem startDiagnostics_extended :
    (registry.extended more extra).startDiagnostics options = registry.startDiagnostics options := by
  unfold startDiagnostics
  cases named : options.start with
  | none => rfl
  | some name =>
    have other : name ≠ extra.name := fun same => start (by rw [named, same])
    simp only [h.isDefined_extended other]

include nonempty

/-- The start production is the one it was. -/
theorem start?_extended :
    (registry.extended more extra).start? options = registry.start? options := by
  unfold start?
  cases named : options.start with
  | none => simp only [names, h.productions_extended, List.map_append, List.head?_append_of_ne_nil _
      (fun none => nonempty (List.map_eq_nil_iff.mp none))]
  | some name =>
    have other : name ≠ extra.name := fun same => start (by rw [named, same])
    simp only [h.isDefined_extended other]

/-- The old productions that the start does not reach are those that it did not reach. -/
theorem unreachableDiagnostics_extended
    (closed : ∀ id, registry.InDefinition id → id < registry.nodes.size)
    (grounded : ∀ production ∈ (registry.extended more extra).productions,
      (registry.extended more extra).Grounded production.root) :
    ((registry.extended more extra).unreachableDiagnostics options).filter
        (·.production != extra.name) = registry.unreachableDiagnostics options := by
  unfold unreachableDiagnostics
  rw [h.start?_extended nonempty start]
  cases hs : registry.start? options with
  | none => rfl
  | some name =>
    have defined := isDefined_of_start? hs
    have reached (callee : String) :
        callee ∈ (registry.extended more extra).reachable name ↔ callee ∈ registry.reachable name :=
      ((h.partOf closed).mem_reachable grounded defined).symm
    have old : (registry.extended more extra).productions.filter (·.name != extra.name) =
        registry.productions := by
      rw [h.productions_extended, List.filter_append, List.filter_eq_self.mpr]
      · simp
      · exact fun production hp => bne_iff_ne.mpr (h.name_ne hp)
    simp only [unreachable, List.filter_map, List.filter_filter, Function.comp_def]
    rw [← old, List.filter_filter]
    refine congrArg (List.map _) (List.filter_congr fun production _ => ?_)
    rw [Bool.eq_iff_iff]
    simp [reached, and_comm]

/-- What validation reports of the old productions is what it reported. -/
theorem diagnostics_extended
    (closed : ∀ id, registry.InDefinition id → id < registry.nodes.size)
    (grounded : ∀ production ∈ (registry.extended more extra).productions,
      (registry.extended more extra).Grounded production.root)
    {names names' : List String} {found : List (Production × List Finding)}
    (hf : registry.foundIn options names = .ok found) (findings : List Finding)
    (free : registry.leftRecursiveCycles names = [])
    (free' : (registry.extended more extra).leftRecursiveCycles names' = []) :
    ((registry.extended more extra).reportOf options names'
        (found ++ [(extra, findings)])).diagnostics.items.filter (·.production != extra.name) =
      (registry.reportOf options names found).diagnostics.items := by
  have later : registry.duplicateDiagnostics.filter (·.production != extra.name) =
      registry.duplicateDiagnostics := by
    refine Diagnostic.filter_others fun diagnostic hd same => ?_
    obtain ⟨definition, hl, rfl⟩ := List.mem_map.mp hd
    exact h.new (same ▸ registry.duplicates_defined definition hl)
  have named : (registry.startDiagnostics options).filter (·.production != extra.name) =
      registry.startDiagnostics options := by
    refine Diagnostic.filter_others fun diagnostic hd same => ?_
    unfold startDiagnostics at hd
    split at hd
    · next name hs =>
      split at hd
      · cases hd
      · rw [List.mem_singleton.mp hd] at same
        exact start (hs.trans (congrArg some same))
    · cases hd
  have old : (found.flatMap fun entry => entry.2.map (·.diagnostic entry.1.name)).filter
      (·.production != extra.name) =
        found.flatMap fun entry => entry.2.map (·.diagnostic entry.1.name) := by
    refine Diagnostic.filter_others fun diagnostic hd same => ?_
    obtain ⟨entry, hm, hd⟩ := List.mem_flatMap.mp hd
    obtain ⟨finding, _, rfl⟩ := List.mem_map.mp hd
    have listed := List.mem_map_of_mem (f := Prod.fst) hm
    rw [map_fst_foundIn hf] at listed
    exact h.name_ne listed same
  have new : (findings.map (·.diagnostic extra.name)).filter (·.production != extra.name) = [] := by
    refine Diagnostic.filter_own fun diagnostic hd => ?_
    obtain ⟨finding, _, rfl⟩ := List.mem_map.mp hd
    rfl
  simp only [reportOf, free, free', List.map_nil, List.nil_append, List.filter_append,
    h.duplicateDiagnostics_extended, h.startDiagnostics_extended start, List.flatMap_append,
    List.flatMap_singleton, later, named, old, new, List.append_nil,
    h.unreachableDiagnostics_extended nonempty start closed grounded]

end Uncalled

/-- Points at later nodes do not change the decisions of earlier nodes. -/
theorem get?_ofPoints_below {points added : List Point} {size : Nat}
    (nodup : ((points ++ added).map (·.node)).Nodup) (old : ∀ point ∈ points, point.node < size)
    (new : ∀ point ∈ added, size ≤ point.node) (id : NodeId) :
    (Resolution.ofPoints points).decisions.get? id =
      if id < size then (Resolution.ofPoints (points ++ added)).decisions.get? id else none := by
  have distinct : (points.map (·.node)).Nodup := by
    rw [List.map_append] at nodup
    exact (List.nodup_append.mp nodup).1
  refine Option.ext fun decision => ?_
  rw [get?_ofPoints_iff distinct]
  by_cases hs : id < size
  · rw [if_pos hs, get?_ofPoints_iff nodup]
    constructor
    · rintro ⟨point, hm, found⟩
      exact ⟨point, List.mem_append_left _ hm, found⟩
    · rintro ⟨point, hm, rfl, found⟩
      rcases List.mem_append.mp hm with hm | hm
      · exact ⟨point, hm, rfl, found⟩
      · exact absurd hs (Nat.not_lt.mpr (new point hm))
  · rw [if_neg hs]
    constructor
    · rintro ⟨point, hm, rfl, _⟩
      exact absurd (old point hm) hs
    · exact nofun

/-- A node that is resolved for a production stands in it, and is reported on in it. -/
theorem mem_pointsOf {report : Report} {options : Options} (grounded : registry.Grounded extra.root)
    {points : List Point} (hp : registry.pointsOf report options (registry.ruleOf extra) = .ok points)
    {point : Point} (hm : point ∈ points) : registry.Reaches extra.root point.node ∧
      ∀ warning ∈ point.warnings, warning.production = extra.name := by
  cases hb : report.isBlocked extra.name with
  | true =>
    rw [pointsOf_blocked hb] at hp
    cases hp
    cases hm
  | false =>
    rw [pointsOf_unblocked hb] at hp
    obtain ⟨below, hs, decides⟩ := exists_decides hp hm
    obtain ⟨node, reached, rfl⟩ := grounded.mem_subtrees.mp hs
    refine ⟨?_, decides.production_eq⟩
    rwa [decides.node_eq, (grounded.of_reaches reached).tree_id]

end

section

variable {σ τ : Type} {registry : Registry} {more : List Node} {extra : Production}
  {options : Options}

/-- A production that nothing calls concerns itself only. Where the grammar with it is
analyzed and found to have no left recursion, so is the grammar without it: it has the
decisions of its own nodes and the statuses of its own productions, and what is reported
of it is, in order, what is reported of the larger grammar outside the new production. The
trees of the grammar must stand in its own arena. -/
theorem analyze_extended (h : registry.Uncalled more extra) (nonempty : registry.productions ≠ [])
    (closed : ∀ id, registry.InDefinition id → id < registry.nodes.size)
    (start : options.start ≠ some extra.name) (state : σ) {state' : τ} {larger : Analysis}
    (analyzed : ((registry.extended more extra).analyze options state').result = .ok larger)
    (ran : larger.lookaheadRan = true) :
    ∃ analysis, (registry.analyze options state).result = .ok analysis ∧
      analysis.lookaheadRan = true ∧
      (∀ id, analysis.decision? id =
        if id < registry.nodes.size then larger.decision? id else none) ∧
      (∀ name, name ≠ extra.name → analysis.status? name = larger.status? name) ∧
      analysis.diagnostics.items =
        larger.diagnostics.items.filter (·.production != extra.name) := by
  obtain ⟨hc, ⟨final', ho'⟩, report', hr', ⟨free', points', hp', rfl⟩ | ⟨_, rfl⟩⟩ :=
    analyze_eq_ok analyzed
  swap
  · cases ran
  have part := h.partOf closed
  have grounded' := grounded_production ho'
  obtain ⟨final, ho⟩ := part.exists_owners ho'
  have grounded := grounded_production ho
  obtain ⟨names, listed, hn, hl, hv⟩ := exists_validated options grounded
  obtain ⟨names', found', hn', hf', hv'⟩ := exists_validated options grounded'
  obtain ⟨found, findings, hf, rfl⟩ := h.exists_foundIn closed grounded' hn hn' hf'
  obtain rfl : listed = found := Except.ok.inj (hl.symm.trans hf)
  obtain rfl : report' = _ := Except.ok.inj (hr'.symm.trans hv')
  have cycles' : (registry.extended more extra).leftRecursiveCycles names' = [] :=
    List.isEmpty_iff.mp free'
  have cycles := part.leftRecursiveCycles_eq_nil grounded' hn hn' cycles'
  have free : (registry.reportOf options names listed).isLeftRecursionFree = true :=
    List.isEmpty_iff.mpr cycles
  have status (name : String) (other : name ≠ extra.name) :
      ((registry.extended more extra).reportOf options names' (listed ++ [(extra, findings)])).status? name =
        (registry.reportOf options names listed).status? name :=
    h.status?_extended closed listed findings other
  have blocked (name : String) (other : name ≠ extra.name) :
      ((registry.extended more extra).reportOf options names' (listed ++ [(extra, findings)])).isBlocked
        name = (registry.reportOf options names listed).isBlocked name := by
    simp only [Report.isBlocked, status name other]
  obtain ⟨points, added, hp, ha, rfl⟩ := h.exists_points closed grounded' hn hn' rfl rfl blocked hp'
  have root : (registry.extended more extra).Grounded extra.root :=
    grounded' extra (by simp [h.productions_extended])
  have old (point : Point) (hm : point ∈ points) : point.node < registry.nodes.size ∧
      ∀ warning ∈ point.warnings, warning.production ≠ extra.name := by
    obtain ⟨production, hprod, _, reached, decides⟩ := exists_production_decides grounded hp hm
    refine ⟨closed point.node ⟨production, List.mem_append_left _ hprod, reached⟩, fun warning hw => ?_⟩
    exact (decides.production_eq warning hw).trans_ne (h.name_ne hprod)
  have new (point : Point) (hm : point ∈ added) : registry.nodes.size ≤ point.node ∧
      ∀ warning ∈ point.warnings, warning.production = extra.name := by
    obtain ⟨reached, reported⟩ := mem_pointsOf root ha hm
    exact ⟨h.apart point.node reached, reported⟩
  have reported : (Resolution.ofPoints points).diagnostics.items =
      (Resolution.ofPoints (points ++ added)).diagnostics.items.filter (·.production != extra.name) := by
    simp only [Resolution.ofPoints, List.flatMap_append, List.filter_append]
    rw [Diagnostic.filter_others, Diagnostic.filter_own, List.append_nil]
    · intro warning hw
      obtain ⟨point, hm, hw⟩ := List.mem_flatMap.mp hw
      exact (new point hm).2 warning hw
    · intro warning hw
      obtain ⟨point, hm, hw⟩ := List.mem_flatMap.mp hw
      exact (old point hm).2 warning hw
  refine ⟨_, analyze_resolved hc ho hv free hp state, rfl, fun id => ?_,
    fun name other => (status name other).symm, ?_⟩
  · exact get?_ofPoints_below (nodup_points ho' hp') (fun point hm => (old point hm).1)
      (fun point hm => (new point hm).1) id
  · have validated := h.diagnostics_extended nonempty start closed grounded' hf findings cycles cycles'
    exact (congrArg₂ (· ++ ·) validated.symm reported).trans (List.filter_append ..).symm

end

/-- The grammar `S -> a | a`. -/
def twice : Registry where
  nodes := #[⟨.terminal "a", {}⟩, ⟨.terminal "a", {}⟩, ⟨.choice [0, 1], {}⟩]
  productions := [{ name := "S", root := 2 }]
  tokens := ["a"]

/-- The nodes of `N -> S | a` behind those of that grammar. -/
def callers : List Node :=
  [⟨.nonTerminal "S" [], {}⟩, ⟨.terminal "a", {}⟩, ⟨.choice [3, 4], {}⟩]

/-- With `N -> S | a` added, two more problems are reported, and the rest stays. -/
theorem analyze_twice : ∃ analysis larger,
    ((twice.extended callers { name := "N", root := 5 }).analyze {} ()).result = .ok larger ∧
      (twice.analyze {} ()).result = .ok analysis ∧
      larger.diagnostics.items.map (·.production) = ["N", "S", "N"] ∧
      analysis.diagnostics.items = larger.diagnostics.items.filter (·.production != "N") ∧
      analysis.decision? 2 = larger.decision? 2 ∧ analysis.decision? 5 = none := by
  have computed : ((twice.extended callers { name := "N", root := 5 }).analyze {}
      ()).result.toOption.map (fun larger =>
        (larger.lookaheadRan, larger.diagnostics.items.map (·.production))) =
      some (true, ["N", "S", "N"]) := by
    decide +kernel
  obtain ⟨larger, hl, reports⟩ := Option.map_eq_some_iff.mp computed
  obtain ⟨ran, listed⟩ := Prod.mk.inj reports
  have analyzed := toOption_eq_some.mp hl
  obtain ⟨_, ⟨final, ho⟩, _⟩ := analyze_eq_ok analyzed
  have uncalled : twice.Uncalled callers { name := "N", root := 5 } := by
    refine ⟨by decide, by simp [twice], fun id reached => ?_⟩
    have grounded : (twice.extended callers { name := "N", root := 5 }).Grounded 5 :=
      grounded_production ho { name := "N", root := 5 } (by simp [extended, callers, twice, addNode, addProduction])
    have new : ∀ id ∈ ((twice.extended callers { name := "N", root := 5 }).tree 5).ids, 3 ≤ id := by
      decide +kernel
    exact new id (grounded.mem_ids.mpr reached)
  have closed : ∀ id, twice.InDefinition id → id < twice.nodes.size := by
    rintro id ⟨definition, hd, reached⟩
    have inside : ∀ definition ∈ twice.definitions, definition.root < twice.nodes.size := by decide
    have grounded : twice.Grounded definition.root := grounded_of_lt (by decide) (inside definition hd)
    exact (grounded.of_reaches reached).lt_size
  obtain ⟨analysis, ha, _, decisions, _, diagnostics⟩ :=
    analyze_extended uncalled (by decide) closed (by decide) () analyzed ran
  exact ⟨analysis, larger, analyzed, ha, listed, diagnostics, decisions 2, decisions 5⟩

/-- The production `S` of one unit that is not allocated. -/
def openEnd : Registry where
  nodes := #[⟨.sequence [1], {}⟩]
  productions := [{ name := "S", root := 0 }]
  tokens := ["a"]

/-- Where a tree reaches beyond the arena, a node that is allocated later may complete it:
the grammar with it is analyzed, and the grammar without it is refused. -/
theorem analyze_openEnd :
    openEnd.Uncalled [⟨.terminal "a", {}⟩, ⟨.terminal "a", {}⟩] { name := "N", root := 2 } ∧
      openEnd.productions ≠ [] ∧ ({} : Options).start ≠ some "N" ∧
      (∃ larger, ((openEnd.extended [⟨.terminal "a", {}⟩, ⟨.terminal "a", {}⟩]
        { name := "N", root := 2 }).analyze {} ()).result = .ok larger ∧ larger.lookaheadRan = true) ∧
      (openEnd.analyze {} ()).result = .error (.unknownNode 1) := by
  refine ⟨⟨by decide, by simp [openEnd], fun id reached => ?_⟩, by decide, by decide, ?_, rfl⟩
  · rcases Relation.ReflTransGen.cases_head reached with rfl | ⟨child, step, _⟩
    · decide
    · cases step
  · have computed : ((openEnd.extended [⟨.terminal "a", {}⟩, ⟨.terminal "a", {}⟩]
        { name := "N", root := 2 }).analyze {} ()).result.toOption.map (·.lookaheadRan) = some true := by
      decide +kernel
    obtain ⟨larger, hl, ran⟩ := Option.map_eq_some_iff.mp computed
    exact ⟨larger, toOption_eq_some.mp hl, ran⟩

end Registry

end BoundedLookahead
