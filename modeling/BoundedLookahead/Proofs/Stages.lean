import BoundedLookahead.Analysis
import BoundedLookahead.Proofs.EmptyWords
import BoundedLookahead.Proofs.EngineAnswers

/-!
# The stages of an analysis

What an analysis finds is told by plain equations: the report of validation, and
after it the decisions over the solutions of the grammar. The notes and the state
of the engine have no part in it.
-/

namespace BoundedLookahead

/-- The finding that was come across. -/
def Observation.toFinding : Observation → Except AnalysisError Finding
  | .finding found => .ok found
  | .stray id => .error (.strayNode id)

/-- The finding that was come across, where it is of the given kind. -/
def Observation.ofKind? (kind : DiagnosticKind) : Observation → Option Finding
  | .finding found => if found.problem.kind = kind then some found else none
  | .stray _ => none

/-- The findings of a kind are those that were come across. -/
theorem findings_ofKind (kind : DiagnosticKind) {observations : List Observation}
    {findings : List Finding} (h : observations.mapM Observation.toFinding = .ok findings) :
    findings.filter (·.problem.kind == kind) =
      observations.filterMap (Observation.ofKind? kind) := by
  have each := mapM_eq_ok.mp h
  clear h
  induction each with
  | nil => rfl
  | @cons observation finding _ _ first rest ih =>
    cases observation with
    | stray id => cases first
    | finding found =>
      cases first
      by_cases hk : finding.problem.kind = kind
      · have kept : (Observation.finding finding).ofKind? kind = some finding := if_pos hk
        rw [List.filter_cons_of_pos (by simpa using hk), ih, List.filterMap_cons_some kept]
      · have other : (Observation.finding finding).ofKind? kind = none := if_neg hk
        rw [List.filter_cons_of_neg (by simpa using hk), ih, List.filterMap_cons_none other]

/-- The kinds of problems that are found in making decisions. -/
def DiagnosticKind.ofDecisions : List DiagnosticKind :=
  [.ambiguity, .loopConflict, .unreachableAlternative, .guardContradiction]

namespace Registry

variable {σ : Type} {registry : Registry} {options : Options} {report : Report}

/-- What was found in each of the productions, given those that can match the empty
word. -/
def foundIn (registry : Registry) (options : Options) (nullable : List String) :
    Except AnalysisError (List (Production × List Finding)) :=
  registry.rules.mapM fun rule => do
    let findings ← (rule.tree.observations registry options nullable .plain).mapM
      Observation.toFinding
    return (rule.production, findings)

/-- The report on what was found. -/
def reportOf (registry : Registry) (options : Options) (nullable : List String)
    (found : List (Production × List Finding)) : Report where
  diagnostics := ⟨registry.duplicateDiagnostics ++ registry.startDiagnostics options ++
    found.flatMap (fun entry => entry.2.map (·.diagnostic entry.1.name)) ++
    ((registry.leftRecursiveCycles nullable).map registry.cycleDiagnostic ++
      registry.unreachableDiagnostics options)⟩
  status := found.map fun entry => (entry.1.name, registry.statusOf entry.1 entry.2)
  nullable := nullable
  cycles := registry.leftRecursiveCycles nullable

/-- A problem in a tree is none of those that are found without walking the trees. -/
theorem kind_ne_of_problem (problem : Problem) : problem.kind ≠ .duplicateProduction ∧
    problem.kind ≠ .undefinedStart ∧ problem.kind ≠ .leftRecursion ∧
    problem.kind ≠ .unreachableProduction := by
  cases problem with
  | emptyBody kind => cases kind <;> decide
  | _ => simp [Problem.kind]

/-- The start production is defined. -/
theorem isDefined_of_start? {name : String} (h : registry.start? options = some name) :
    registry.isDefined name = true := by
  unfold start? at h
  split at h
  · split at h
    · next defined =>
      cases h
      exact defined
    · cases h
  · rw [isDefined_iff]
    exact List.mem_of_head? h

section

variable {diagnostic : Diagnostic}

/-- Later definitions are reported as such. -/
theorem kind_of_mem_duplicateDiagnostics (h : diagnostic ∈ registry.duplicateDiagnostics) :
    diagnostic.kind = .duplicateProduction := by
  obtain ⟨later, _, rfl⟩ := List.mem_map.mp h
  rfl

/-- A start production that is not defined is reported as such. -/
theorem kind_of_mem_startDiagnostics (h : diagnostic ∈ registry.startDiagnostics options) :
    diagnostic.kind = .undefinedStart := by
  unfold startDiagnostics at h
  split at h
  · split at h
    · cases h
    · rw [List.mem_singleton.mp h]
  · cases h

/-- What is found in the trees is reported as the kind of its problem. -/
theorem exists_problem_of_mem_findings {found : List (Production × List Finding)}
    (h : diagnostic ∈ found.flatMap fun entry => entry.2.map (·.diagnostic entry.1.name)) :
    ∃ problem : Problem, diagnostic.kind = problem.kind := by
  obtain ⟨entry, _, h⟩ := List.mem_flatMap.mp h
  obtain ⟨finding, _, rfl⟩ := List.mem_map.mp h
  exact ⟨finding.problem, rfl⟩

/-- Productions that the start does not reach are reported as such. -/
theorem kind_of_mem_unreachableDiagnostics
    (h : diagnostic ∈ registry.unreachableDiagnostics options) :
    diagnostic.kind = .unreachableProduction := by
  unfold unreachableDiagnostics at h
  split at h
  · cases h
  · obtain ⟨production, _, rfl⟩ := List.mem_map.mp h
    rfl

end

/-- Diagnostics of one kind are all or none of them of a given kind. -/
theorem filter_kind_of_forall {diagnostics : List Diagnostic} {own : DiagnosticKind}
    (h : ∀ diagnostic ∈ diagnostics, diagnostic.kind = own) (kind : DiagnosticKind) :
    diagnostics.filter (·.kind == kind) = if kind = own then diagnostics else [] := by
  split
  · next same => exact List.filter_eq_self.mpr fun diagnostic hm => by simp [h diagnostic hm, same]
  · next other =>
    exact List.filter_eq_nil_iff.mpr fun diagnostic hm => by simpa [h diagnostic hm] using Ne.symm other

/-- The diagnostics of a kind in a report, part by part. -/
theorem ofKind_parts (options : Options) (nullable : List String)
    (found : List (Production × List Finding)) (kind : DiagnosticKind) :
    (registry.reportOf options nullable found).diagnostics.ofKind kind =
      (if kind = .duplicateProduction then registry.duplicateDiagnostics else []) ++
      (if kind = .undefinedStart then registry.startDiagnostics options else []) ++
      (found.flatMap fun entry =>
        (entry.2.filter (·.problem.kind == kind)).map (·.diagnostic entry.1.name)) ++
      ((if kind = .leftRecursion then
          (registry.leftRecursiveCycles nullable).map registry.cycleDiagnostic else []) ++
        if kind = .unreachableProduction then registry.unreachableDiagnostics options else []) := by
  have cycles : ∀ diagnostic ∈ (registry.leftRecursiveCycles nullable).map registry.cycleDiagnostic,
      diagnostic.kind = .leftRecursion := by
    intro diagnostic hm
    obtain ⟨cycle, _, rfl⟩ := List.mem_map.mp hm
    rfl
  have kept (production : Production) (findings : List Finding) :
      (findings.map (·.diagnostic production.name)).filter (·.kind == kind) =
        (findings.filter (·.problem.kind == kind)).map (·.diagnostic production.name) :=
    List.filter_map
  unfold Diagnostics.ofKind reportOf
  simp only [List.filter_append, List.filter_flatMap, kept, filter_kind_of_forall cycles,
    filter_kind_of_forall fun _ => kind_of_mem_duplicateDiagnostics,
    filter_kind_of_forall fun _ => kind_of_mem_startDiagnostics,
    filter_kind_of_forall fun _ => kind_of_mem_unreachableDiagnostics]

/-- Problems that are found without walking the trees are found in no tree. -/
theorem flatMap_findings_eq_nil (found : List (Production × List Finding)) {kind : DiagnosticKind}
    (other : ∀ problem : Problem, problem.kind ≠ kind) :
    (found.flatMap fun entry =>
      (entry.2.filter (·.problem.kind == kind)).map (·.diagnostic entry.1.name)) = [] := by
  simp [List.flatMap_eq_nil_iff, other]

/-- The diagnostics of later definitions in a report. -/
theorem ofKind_duplicateProduction (options : Options) (nullable : List String)
    (found : List (Production × List Finding)) :
    (registry.reportOf options nullable found).diagnostics.ofKind .duplicateProduction =
      registry.duplicateDiagnostics := by
  rw [ofKind_parts, flatMap_findings_eq_nil found fun problem => (kind_ne_of_problem problem).1]
  simp

/-- The diagnostics of an undefined start production in a report. -/
theorem ofKind_undefinedStart (options : Options) (nullable : List String)
    (found : List (Production × List Finding)) :
    (registry.reportOf options nullable found).diagnostics.ofKind .undefinedStart =
      registry.startDiagnostics options := by
  rw [ofKind_parts, flatMap_findings_eq_nil found fun problem => (kind_ne_of_problem problem).2.1]
  simp

/-- The diagnostics of left recursion in a report are those of its cycles. -/
theorem ofKind_leftRecursion (options : Options) (nullable : List String)
    (found : List (Production × List Finding)) :
    (registry.reportOf options nullable found).diagnostics.ofKind .leftRecursion =
      (registry.leftRecursiveCycles nullable).map registry.cycleDiagnostic := by
  rw [ofKind_parts, flatMap_findings_eq_nil found fun problem => (kind_ne_of_problem problem).2.2.1]
  simp

/-- The diagnostics of unreachable productions in a report. -/
theorem ofKind_unreachableProduction (options : Options) (nullable : List String)
    (found : List (Production × List Finding)) :
    (registry.reportOf options nullable found).diagnostics.ofKind .unreachableProduction =
      registry.unreachableDiagnostics options := by
  rw [ofKind_parts, flatMap_findings_eq_nil found fun problem => (kind_ne_of_problem problem).2.2.2]
  simp

/-- Problems of another kind than those that are found without walking the trees are reported
as they are come across, production by production. -/
theorem ofKind_reportOf {names : List String} {found : List (Production × List Finding)}
    (hf : registry.foundIn options names = .ok found) {kind : DiagnosticKind}
    (other : kind ≠ .duplicateProduction ∧ kind ≠ .undefinedStart ∧ kind ≠ .leftRecursion ∧
      kind ≠ .unreachableProduction) :
    (registry.reportOf options names found).diagnostics.ofKind kind =
      registry.rules.flatMap fun rule =>
        ((rule.tree.observations registry options names .plain).filterMap
          (Observation.ofKind? kind)).map (·.diagnostic rule.name) := by
  rw [ofKind_parts, if_neg other.1, if_neg other.2.1, if_neg other.2.2.1, if_neg other.2.2.2]
  simp only [List.nil_append, List.append_nil]
  have each := mapM_eq_ok.mp hf
  clear hf
  generalize registry.rules = rules at each ⊢
  induction each with
  | nil => rfl
  | cons first rest ih =>
    obtain ⟨findings, hfindings, h⟩ := bind_eq_ok.mp first
    cases h
    rw [List.flatMap_cons, List.flatMap_cons, ih, findings_ofKind kind hfindings]
    rfl

/-- The report of validation. -/
def validated (registry : Registry) (options : Options) : Except AnalysisError Report := do
  let nullable ← registry.nullableNames
  let found ← registry.foundIn options nullable
  return registry.reportOf options nullable found

/-- Validation finds none of the problems that are found in making decisions. -/
theorem kind_not_mem_ofDecisions (hr : registry.validated options = .ok report) :
    ∀ diagnostic ∈ report.diagnostics.items, diagnostic.kind ∉ DiagnosticKind.ofDecisions := by
  obtain ⟨nullable, _, h⟩ := bind_eq_ok.mp hr
  obtain ⟨found, _, h⟩ := bind_eq_ok.mp h
  cases h
  have problem (found : Problem) : found.kind ∉ DiagnosticKind.ofDecisions := by
    cases found with
    | emptyBody kind => cases kind <;> decide
    | _ => simp [Problem.kind, DiagnosticKind.ofDecisions]
  intro diagnostic hd
  simp only [reportOf, List.mem_append] at hd
  rcases hd with ((hd | hd) | hd) | hd | hd
  · rw [kind_of_mem_duplicateDiagnostics hd]
    decide
  · rw [kind_of_mem_startDiagnostics hd]
    decide
  · obtain ⟨other, ho⟩ := exists_problem_of_mem_findings hd
    rw [ho]
    exact problem other
  · obtain ⟨cycle, _, rfl⟩ := List.mem_map.mp hd
    have kind : (registry.cycleDiagnostic cycle).kind = .leftRecursion := rfl
    rw [kind]
    decide
  · rw [kind_of_mem_unreachableDiagnostics hd]
    decide

/-- What a walk comes across depends on the tokens and the calls of the tree, on what is
nullable in it, and on whether predicates are allowed. -/
theorem observations_congr {other : Registry} {options' : Options} {names names' : List String}
    {tree : Tree} (predicates : options.allowPredicates = options'.allowPredicates)
    (tokens : ∀ kind, registry.isDeclared kind = other.isDeclared kind)
    (below : ∀ inner ∈ tree.subtrees, inner.nullable names = inner.nullable names' ∧
      ∀ name args, inner.expansion? = some (.nonTerminal name args) →
        registry.production? name = other.production? name) (slot : Slot) :
    tree.observations registry options names slot = tree.observations other options' names' slot := by
  induction tree using Tree.induction generalizing slot with
  | stray id => rfl
  | node id location expansion ih =>
    have child (tree : Tree) (hm : tree ∈ expansion.children) (slot : Slot) :
        tree.observations registry options names slot =
          tree.observations other options' names' slot :=
      ih tree hm (fun inner hi => below inner (Tree.mem_subtrees_of_child hm hi)) slot
    have row (first rest : Slot) (trees : List Tree) (hm : trees ⊆ expansion.children) :
        Tree.listObservations registry options names first rest trees =
          Tree.listObservations other options' names' first rest trees := by
      induction trees generalizing first with
      | nil => rfl
      | cons tree trees iht =>
        rw [List.cons_subset] at hm
        simp only [Tree.listObservations, child tree hm.1, iht rest hm.2]
    have problems {α : Type} (slot : Slot) (directive : Directive α) :
        options.directiveProblems slot directive = options'.directiveProblems slot directive := by
      simp only [Options.directiveProblems, predicates]
    have empty (body : Tree) (hm : body ∈ expansion.children) :
        body.nullable names = body.nullable names' :=
      (below body (Tree.mem_subtrees_of_child hm body.mem_subtrees_self)).1
    cases expansion with
    | terminal kind => simp only [Tree.observations, tokens]
    | nonTerminal name args =>
      have called := (below _ (Tree.mem_subtrees_self _)).2 name args rfl
      simp only [Tree.observations, callProblem?, called]
    | sequence units => exact row _ _ units (List.Subset.refl _)
    | choice alternatives => exact row _ _ alternatives (List.Subset.refl _)
    | repetition kind body guard =>
      have hm : body ∈ (Expansion.repetition kind body guard).children := by
        simp [Expansion.children]
      have hb := child body hm
      cases guard with
      | none => simp only [Tree.observations, hb, empty body hm]
      | some guard =>
        have hg := child guard (by simp [Expansion.children])
        simp only [Tree.observations, hb, hg, empty body hm]
    | lookahead directive =>
      obtain ⟨amount, predicate, _ | guard⟩ := directive
      · simp only [Tree.observations, problems]
      · have hg := child guard (by simp [Expansion.children])
        simp only [Tree.observations, problems, hg]
    | action code => rfl
    | tryBlock body handlers cleanup => exact child body (by simp [Expansion.children]) _

/-- The report of validation depends on no other settings than whether predicates are
allowed and what the start production is. -/
theorem validated_congr {options' : Options}
    (predicates : options.allowPredicates = options'.allowPredicates)
    (start : options.start = options'.start) :
    registry.validated options = registry.validated options' := by
  have same (names : List String) (tree : Tree) (slot : Slot) :
      tree.observations registry options names slot =
        tree.observations registry options' names slot :=
    observations_congr predicates (fun _ => rfl) (fun _ _ => ⟨rfl, fun _ _ _ => rfl⟩) slot
  simp only [validated, foundIn, same, reportOf, startDiagnostics, unreachableDiagnostics, start?,
    start]

/-- The report of validation does not depend on the depth. -/
theorem validated_lookahead (registry : Registry) (options : Options) (k : Nat) :
    registry.validated { options with lookahead := k } = registry.validated options :=
  validated_congr rfl rfl

/-- Reporting observations finds the findings. -/
theorem reportObservations_result (production : String) (observations : List Observation)
    (state : σ) : (Run.reportObservations production observations state).result =
      observations.mapM Observation.toFinding := by
  induction observations generalizing state with
  | nil => rfl
  | cons observation observations ih =>
    rw [List.mapM_cons]
    cases observation with
    | stray id => rfl
    | finding finding =>
      unfold Run.reportObservations
      rw [Run.bind_result, Run.report, Run.note_result, ok_bind, Run.bind_result, ih]
      rfl

/-- Reporting on rules finds what is found in each. -/
theorem reportRules_result (options : Options) (nullable : List String) (rules : List Rule)
    (state : σ) : (Run.reportRules registry options nullable rules state).result =
      rules.mapM fun rule => do
        let findings ← (rule.tree.observations registry options nullable .plain).mapM
          Observation.toFinding
        return (rule.production, findings) := by
  induction rules generalizing state with
  | nil => rfl
  | cons rule rules ih =>
    unfold Run.reportRules
    rw [List.mapM_cons, Run.bind_result, reportObservations_result]
    cases (rule.tree.observations registry options nullable .plain).mapM Observation.toFinding with
    | error cause => rfl
    | ok findings =>
      rw [ok_bind, Run.bind_result, ih]
      rfl

/-- Validation makes its report. -/
theorem validate_result (state : σ) :
    (registry.validate options state).result = registry.validated options := by
  unfold validate validated
  rw [Run.bind_result, Run.note_result, ok_bind, Run.bind_result, Run.ofExcept_result]
  cases registry.nullableNames with
  | error cause => rfl
  | ok nullable =>
    simp only [ok_bind]
    rw [Run.bind_result, Run.noteAll_result, ok_bind, Run.bind_result, reportRules_result]
    change (registry.foundIn options nullable >>= _) = _
    cases registry.foundIn options nullable with
    | error cause => rfl
    | ok found => rfl

/-- What a walk comes across at a node is a problem of the node, or it comes across it below. -/
theorem mem_observations_node {nullable : List String} {id : NodeId} {location : Location}
    {expansion : Expansion Tree} {slot : Slot} {observation : Observation}
    (h : observation ∈ (Tree.node id location expansion).observations registry options nullable slot) :
    (∃ problem, observation = .finding ⟨id, location, problem⟩ ∧ ∀ directive,
      expansion = .lookahead directive → problem ∈ options.directiveProblems slot directive) ∨
    ∃ child ∈ expansion.children, ∃ slot,
      observation ∈ child.observations registry options nullable slot := by
  have row (first rest : Slot) (trees : List Tree)
      (h : observation ∈ Tree.listObservations registry options nullable first rest trees) :
      ∃ child ∈ trees, ∃ slot, observation ∈ child.observations registry options nullable slot := by
    induction trees generalizing first with
    | nil => cases h
    | cons tree trees ih =>
      rcases List.mem_append.mp h with h | h
      · exact ⟨tree, List.mem_cons_self, first, h⟩
      · obtain ⟨child, hc, found⟩ := ih rest h
        exact ⟨child, List.mem_cons_of_mem _ hc, found⟩
  have empty (kind : RepetitionKind) (body : Tree) (h : observation ∈
      if body.nullable nullable then [Observation.finding ⟨id, location, .emptyBody kind⟩] else []) :
      observation = .finding ⟨id, location, .emptyBody kind⟩ := by
    split at h
    · exact List.mem_singleton.mp h
    · cases h
  cases expansion with
  | terminal kind =>
    unfold Tree.observations at h
    split at h
    · cases h
    · exact .inl ⟨_, List.mem_singleton.mp h, nofun⟩
  | nonTerminal name args =>
    obtain ⟨problem, _, rfl⟩ := List.mem_map.mp h
    exact .inl ⟨problem, rfl, nofun⟩
  | sequence units => exact .inr (row _ _ units h)
  | choice alternatives => exact .inr (row _ _ alternatives h)
  | repetition kind body guard =>
    cases guard with
    | none =>
      rcases List.mem_append.mp h with h | h
      · exact .inr ⟨body, List.mem_cons_self, _, h⟩
      · exact .inl ⟨_, empty kind body h, nofun⟩
    | some guard =>
      rcases List.mem_append.mp h with h | h
      · exact .inr ⟨guard, List.mem_cons_self, _, h⟩
      · rcases List.mem_append.mp h with h | h
        · exact .inr ⟨body, List.mem_cons_of_mem _ List.mem_cons_self, _, h⟩
        · exact .inl ⟨_, empty kind body h, nofun⟩
  | lookahead directive =>
    have own (directive : Directive Tree) (h : observation ∈
        (options.directiveProblems slot directive).map fun problem =>
          Observation.finding ⟨id, location, problem⟩) : ∃ problem,
        observation = .finding ⟨id, location, problem⟩ ∧ ∀ other,
          Expansion.lookahead directive = .lookahead other →
            problem ∈ options.directiveProblems slot other := by
      obtain ⟨problem, hp, rfl⟩ := List.mem_map.mp h
      refine ⟨problem, rfl, fun other same => ?_⟩
      cases same
      exact hp
    obtain ⟨amount, predicate, _ | guard⟩ := directive
    · exact .inl (own _ h)
    · rcases List.mem_append.mp h with h | h
      · exact .inl (own _ h)
      · exact .inr ⟨guard, List.mem_cons_self, _, h⟩
  | action code => cases h
  | tryBlock body handlers cleanup => exact .inr ⟨body, List.mem_cons_self, _, h⟩

/-- A walk over a whole tree comes across findings only. -/
theorem exists_finding_of_whole {nullable : List String} {tree : Tree} (h : tree.Whole) (slot : Slot) :
    ∀ observation ∈ tree.observations registry options nullable slot,
      ∃ finding, observation = .finding finding := by
  induction tree using Tree.induction generalizing slot with
  | stray id => cases h
  | node id location expansion ih =>
    rw [Tree.whole_node] at h
    intro observation hm
    rcases mem_observations_node hm with ⟨problem, found, _⟩ | ⟨child, hc, slot, below⟩
    · exact ⟨_, found⟩
    · exact ih child hc (h child hc) slot observation below

/-- On grounded productions validation makes a report. -/
theorem exists_validated (options : Options)
    (grounded : ∀ production ∈ registry.productions, registry.Grounded production.root) :
    ∃ nullable found, registry.nullableNames = .ok nullable ∧
      registry.foundIn options nullable = .ok found ∧
      registry.validated options = .ok (registry.reportOf options nullable found) := by
  obtain ⟨nullable, hn⟩ := exists_nullableNames grounded
  cases hf : registry.foundIn options nullable with
  | ok found =>
    refine ⟨nullable, found, hn, hf, ?_⟩
    unfold validated
    rw [hn, ok_bind, hf]
    rfl
  | error cause =>
    obtain ⟨rule, hr, hc⟩ := mapM_eq_error hf
    obtain ⟨production, hp, rfl⟩ := mem_rules.mp hr
    rcases bind_eq_error.mp hc with hc | ⟨findings, _, hc⟩
    · obtain ⟨observation, hm, ho⟩ := mapM_eq_error hc
      obtain ⟨finding, rfl⟩ := exists_finding_of_whole (grounded production hp).whole .plain _ hm
      cases ho
    · cases hc

/-- The resolved nodes of the productions that are not blocked. -/
def points (registry : Registry) (report : Report) (options : Options) :
    Except AnalysisError (List Point) :=
  (registry.oracle options.expansionLimit).resolveRules report options report.nullable
    registry.rules

end Registry

namespace Engine

variable {registry : Registry} {nullable : List String} {limit : Nat}

/-- An engine answers to the solutions of its grammar. -/
theorem oracle_simulates : oracle.Simulates (serving registry nullable limit) (fun _ => True)
    registry limit where
  first id _ k := serving_first id k
  note _ _ h := ⟨rfl, h⟩

/-- An engine resolves what the solutions of its grammar resolve. -/
theorem resolve_result {engine : Engine} (report : Report) (options : Options)
    (h : engine.Serves registry nullable limit) :
    (resolve report options engine).result =
      ((registry.oracle limit).resolveRules report options nullable registry.rules).map
        Resolution.ofPoints := by
  obtain ⟨rfl, rfl, rfl⟩ := h
  have hs : engine.Serves engine.registry engine.nullable engine.limit := ⟨rfl, rfl, rfl⟩
  have related : (serving engine.registry engine.nullable engine.limit).relates
      (oracle.resolve engine.registry report options engine.nullable)
      ((engine.registry.oracle engine.limit).resolve engine.registry report options
        engine.nullable) :=
    oracle_simulates.resolve report options engine.nullable fun _ _ _ _ => trivial
  obtain ⟨hr, _⟩ := related engine hs
  unfold resolve
  rw [Run.bind_result, Run.get_result, ok_bind, Run.bind_result]
  change ((oracle.resolve engine.registry report options engine.nullable engine).result >>= _) = _
  rw [hr]
  change ((engine.registry.oracle engine.limit).resolveRules report options engine.nullable
    engine.registry.rules >>= _) >>= _ = _
  cases (engine.registry.oracle engine.limit).resolveRules report options engine.nullable
      engine.registry.rules with
  | error cause => rfl
  | ok points => rfl

end Engine

namespace Registry

variable {σ : Type} {registry : Registry} {options : Options} {report : Report}

/-- Where settings and ownership are in order, decisions are made over the solutions
of the grammar unless there is left recursion. -/
theorem decide_result (hc : options.check = .ok ()) {final : Owners}
    (ho : registry.owners = .ok final) (state : σ) :
    (registry.decide report options state).result =
      if report.isLeftRecursionFree then
        (registry.points report options).map fun points => (Resolution.ofPoints points, true)
      else .ok (⟨∅, ⟨[]⟩⟩, false) := by
  unfold decide
  split
  · next hf =>
    have started := Engine.start_eq_ok.mpr ⟨hf, hc, ⟨final, ho⟩, rfl⟩
    rw [Run.bind_result, Run.ofExcept_result, started, ok_bind, Run.bind_result, Run.within_result,
      Engine.resolve_result report options ⟨rfl, rfl, rfl⟩]
    unfold points
    cases (registry.oracle options.expansionLimit).resolveRules report options report.nullable
        registry.rules with
    | error cause => rfl
    | ok points => rfl
  · rfl

/-- An analysis checks the settings and the ownership, validates and decides. -/
theorem analyze_result (state : σ) : (registry.analyze options state).result = (do
    options.check
    let _ ← registry.owners
    let report ← registry.validated options
    if report.isLeftRecursionFree then
      let points ← registry.points report options
      return ⟨report.diagnostics ++ (Resolution.ofPoints points).diagnostics,
        (Resolution.ofPoints points).decisions, report.status, true⟩
    else return ⟨report.diagnostics ++ ⟨[]⟩, ∅, report.status, false⟩) := by
  unfold analyze
  rw [Run.bind_result, Run.ofExcept_result]
  cases hc : options.check with
  | error cause => rfl
  | ok _ =>
    rw [ok_bind, ok_bind, Run.bind_result, Run.ofExcept_result]
    cases ho : registry.owners with
    | error cause => rfl
    | ok final =>
      rw [ok_bind, ok_bind, Run.bind_result, validate_result]
      cases registry.validated options with
      | error cause => rfl
      | ok report =>
        rw [ok_bind, ok_bind, Run.bind_result, decide_result hc ho]
        split
        · cases registry.points report options with
          | error cause => rfl
          | ok points => rfl
        · rfl

section

variable (valid : options.check = .ok ()) {final : Owners} (ho : registry.owners = .ok final)
  (hr : registry.validated options = .ok report)

include valid ho hr

/-- The analysis of a grammar without left recursion is made of its points. -/
theorem analyze_free (free : report.isLeftRecursionFree = true) (state : σ) :
    (registry.analyze options state).result =
      (registry.points report options >>= fun points =>
        .ok ⟨report.diagnostics ++ (Resolution.ofPoints points).diagnostics,
          (Resolution.ofPoints points).decisions, report.status, true⟩) := by
  rw [analyze_result, valid, ho, hr, ok_bind, ok_bind, ok_bind, if_pos free]
  rfl

/-- The analysis of a grammar without left recursion has the decisions of its points. -/
theorem analyze_resolved (free : report.isLeftRecursionFree = true) {points : List Point}
    (hp : registry.points report options = .ok points) (state : σ) :
    (registry.analyze options state).result =
      .ok ⟨report.diagnostics ++ (Resolution.ofPoints points).diagnostics,
        (Resolution.ofPoints points).decisions, report.status, true⟩ := by
  rw [analyze_free valid ho hr free, hp]
  rfl

/-- That of a left-recursive grammar has no decisions. -/
theorem analyze_unresolved (recursive : report.isLeftRecursionFree = false) (state : σ) :
    (registry.analyze options state).result =
      .ok ⟨report.diagnostics ++ ⟨[]⟩, ∅, report.status, false⟩ := by
  rw [analyze_result, valid, ho, hr, ok_bind, ok_bind, ok_bind, if_neg (by simp [recursive])]
  rfl

end

/-- What an analysis that succeeds is made of. -/
theorem analyze_eq_ok {state : σ} {analysis : Analysis}
    (h : (registry.analyze options state).result = .ok analysis) :
    options.check = .ok () ∧ (∃ final, registry.owners = .ok final) ∧
      ∃ report, registry.validated options = .ok report ∧
        ((report.isLeftRecursionFree = true ∧ ∃ points, registry.points report options = .ok points ∧
          analysis = ⟨report.diagnostics ++ (Resolution.ofPoints points).diagnostics,
            (Resolution.ofPoints points).decisions, report.status, true⟩) ∨
        (report.isLeftRecursionFree = false ∧
          analysis = ⟨report.diagnostics ++ ⟨[]⟩, ∅, report.status, false⟩)) := by
  rw [analyze_result] at h
  obtain ⟨_, hc, h⟩ := bind_eq_ok.mp h
  obtain ⟨final, ho, h⟩ := bind_eq_ok.mp h
  obtain ⟨report, hr, h⟩ := bind_eq_ok.mp h
  refine ⟨hc, ⟨final, ho⟩, report, hr, ?_⟩
  split at h
  · next free =>
    obtain ⟨points, hp, h⟩ := bind_eq_ok.mp h
    cases h
    exact .inl ⟨free, points, hp, rfl⟩
  · next recursive =>
    cases h
    exact .inr ⟨Bool.not_eq_true _ ▸ recursive, rfl⟩

end Registry

end BoundedLookahead
