import BoundedLookahead.Proofs.CallGraphs
import BoundedLookahead.Proofs.Slots
import BoundedLookahead.Proofs.Truncation
import BoundedLookahead.Proofs.Unrolling

/-!
# Statuses of productions

A production is blocked when a structural problem is reported for it. Otherwise its
status lists the repetitions in its tree that could run a body on nothing forever, and it
is valid when there is none. These are also the loops of the production whose first set
can match nothing: what validation finds with nullable productions is what the decisions
find with first sets.
-/

namespace BoundedLookahead

namespace Tree

/-- The ids of the tree, children in declaration order before their parent. -/
def postorder : Tree → List NodeId :=
  Tree.fold (fun id => [id]) fun id _ expansion => expansion.children.flatMap Thunk.get ++ [id]

/-- The ids of the children of a node come before its own. -/
theorem postorder_node (id : NodeId) (location : Location) (expansion : Expansion Tree) :
    (Tree.node id location expansion).postorder =
      expansion.children.flatMap postorder ++ [id] := by
  unfold postorder
  rw [fold_node, Expansion.children_map, List.flatMap_map]
  rfl

/-- Both orders have the same ids. -/
theorem mem_postorder {tree : Tree} {node : NodeId} : node ∈ tree.postorder ↔ node ∈ tree.ids := by
  induction tree using Tree.induction with
  | stray id => exact Iff.rfl
  | node id location expansion ih =>
    rw [postorder_node, ids_node, List.mem_append, List.mem_singleton, List.mem_cons, or_comm,
      List.mem_flatMap, List.mem_flatMap]
    exact or_congr_right (exists_congr fun child => and_congr_right fun hc => ih child hc)

end Tree

/-- The node of the observation, where it is a body that can match nothing and run again. -/
def Observation.emptyLoop? : Observation → Option NodeId
  | .finding found => if found.problem.kind = .emptyRepetition then some found.node else none
  | .stray _ => none

/-- These are the nodes of the findings of one kind. -/
theorem Observation.emptyLoop?_eq (observation : Observation) :
    observation.emptyLoop? = (observation.ofKind? .emptyRepetition).map (·.node) := by
  cases observation with
  | stray id => rfl
  | finding found =>
    simp only [emptyLoop?, ofKind?]
    split <;> rfl

/-- What is observed in this way is found in this way. -/
theorem nodes_of_findings {observations : List Observation} {findings : List Finding}
    (h : observations.mapM Observation.toFinding = .ok findings) :
    (findings.filter (·.problem.kind == .emptyRepetition)).map (·.node) =
      observations.filterMap Observation.emptyLoop? := by
  rw [findings_ofKind .emptyRepetition h, List.map_filterMap]
  exact List.filterMap_congr fun observation _ => observation.emptyLoop?_eq.symm

namespace Registry

variable {σ : Type} {registry : Registry} {options : Options} {report : Report} {limit : Nat}
  {scope : Scope} {id : NodeId} {names : List String}

/-- The node is a repetition whose body may run again and can derive the empty word. -/
def EmptyLoop (registry : Registry) (id : NodeId) : Prop :=
  ∃ kind body guard, registry.expansion? id = some (.repetition kind body guard) ∧
    kind.repeats = true ∧ registry.Derives .repeated body []

/-- Such repetitions below a node, children in declaration order before their parent. -/
noncomputable def emptyLoops (registry : Registry) (root : NodeId) : List NodeId :=
  (registry.tree root).postorder.filter fun id =>
    @Decidable.decide (registry.EmptyLoop id) (Classical.propDecidable _)

/-- They are below the node. -/
theorem Grounded.mem_emptyLoops {root : NodeId} (h : registry.Grounded root) :
    id ∈ registry.emptyLoops root ↔ registry.Reaches root id ∧ registry.EmptyLoop id := by
  rw [emptyLoops, List.mem_filter, Tree.mem_postorder, h.mem_ids]
  exact and_congr_right fun _ => @decide_eq_true_iff _ (Classical.propDecidable _)

/-- Those of a node are those of its children and, behind them, the node itself if it is
one. -/
theorem Grounded.emptyLoops_eq {expansion : Expansion NodeId} (h : registry.Grounded id)
    (he : registry.expansion? id = some expansion) {test : Bool}
    (loop : registry.EmptyLoop id ↔ test = true) :
    registry.emptyLoops id =
      expansion.children.flatMap registry.emptyLoops ++ if test then [id] else [] := by
  obtain ⟨location, ht⟩ := h.exists_tree_eq he
  have below : (expansion.children.flatMap fun child => (registry.tree child).postorder).filter
      (fun id => @Decidable.decide (registry.EmptyLoop id) (Classical.propDecidable _)) =
        expansion.children.flatMap registry.emptyLoops :=
    List.filter_flatMap
  rw [emptyLoops, ht, Tree.postorder_node, Expansion.children_map, List.flatMap_map,
    List.filter_append, below]
  by_cases hl : registry.EmptyLoop id
  · rw [if_pos (loop.mp hl), List.filter_cons_of_pos (by simpa using hl), List.filter_nil]
  · rw [if_neg (mt loop.mpr hl), List.filter_cons_of_neg (by simpa using hl), List.filter_nil]

/-- A node that is no repetition adds nothing to those of its children. -/
theorem Grounded.emptyLoops_of_ne {expansion : Expansion NodeId} (h : registry.Grounded id)
    (he : registry.expansion? id = some expansion) (hne : expansion.repetition? = none) :
    registry.emptyLoops id = expansion.children.flatMap registry.emptyLoops := by
  have none : registry.EmptyLoop id ↔ false = true := by
    refine ⟨?_, nofun⟩
    rintro ⟨kind, body, guard, he', _⟩
    rw [he] at he'
    cases he'
    cases hne
  rw [h.emptyLoops_eq he none, if_neg Bool.false_ne_true, List.append_nil]

section

variable (grounded : ∀ production ∈ registry.productions, registry.Grounded production.root)
  (hn : registry.nullableNames = .ok names)

include grounded hn

/-- A repetition is such a node when it may run its body again and the body is found
nullable. -/
theorem Grounded.emptyLoop_iff {body : NodeId} {kind : RepetitionKind} {guard : Option NodeId}
    (h : registry.Grounded body)
    (he : registry.expansion? id = some (.repetition kind body guard)) :
    registry.EmptyLoop id ↔ (kind.repeats && (registry.tree body).nullable names) = true := by
  rw [Bool.and_eq_true, h.nullable_iff grounded hn]
  constructor
  · rintro ⟨_, _, _, he', repeats, empty⟩
    rw [he] at he'
    cases he'
    exact ⟨repeats, empty⟩
  · rintro ⟨repeats, empty⟩
    exact ⟨kind, body, guard, he, repeats, empty⟩

/-- A walk finds these repetitions in this order: those of the children before the node
itself. -/
theorem Grounded.nodes_emptyRepetitions (h : registry.Grounded id) (slot : Slot) :
    (registry.findingsFrom options names .emptyRepetition (id, slot)).map (·.node) =
      registry.emptyLoops id := by
  induction h generalizing slot with
  | @node id entry found below ih =>
    obtain ⟨expansion, location⟩ := entry
    have he : registry.expansion? id = some expansion := by simp [expansion?, found]
    have h : registry.Grounded id := .node found below
    have before : (registry.problemsBefore options slot expansion).filter
        (·.kind == .emptyRepetition) = [] :=
      List.filter_eq_nil_iff.mpr fun problem hm => by simpa using kind_of_mem_problemsBefore hm
    have children : ((expansion.slots slot).flatMap
        (registry.findingsFrom options names .emptyRepetition)).map (·.node) =
          expansion.children.flatMap registry.emptyLoops := by
      rw [List.map_flatMap, ← expansion.map_fst_slots slot, List.flatMap_map]
      exact List.flatMap_congr fun child hc => ih child.1 (child_of_mem_slots hc) child.2
    rw [h.findingsFrom_eq he, before, List.map_append, List.map_append, children]
    cases expansion with
    | repetition kind body guard =>
      have loop := (below body (by simp [Expansion.children])).emptyLoop_iff grounded hn he
      rw [h.emptyLoops_eq he loop, problemsAfter]
      cases kind <;> cases (registry.tree body).nullable names <;> rfl
    | _ =>
      rw [h.emptyLoops_of_ne he rfl]
      exact List.append_nil _

/-- So it observes them in this order. -/
theorem Grounded.filterMap_observations (h : registry.Grounded id) (slot : Slot) :
    ((registry.tree id).observations registry options names slot).filterMap
      Observation.emptyLoop? = registry.emptyLoops id := by
  rw [← h.nodes_emptyRepetitions grounded hn slot, findingsFrom, List.map_filterMap]
  exact List.filterMap_congr fun observation _ => observation.emptyLoop?_eq

end

/-- The productions in what was found are the registered ones in their order. -/
theorem map_fst_foundIn {found : List (Production × List Finding)}
    (hf : registry.foundIn options names = .ok found) :
    found.map Prod.fst = registry.productions := by
  have rules : registry.rules.map Rule.production = registry.productions := by
    simp [Registry.rules, Function.comp_def]
  rw [← rules]
  refine map_eq_of_mapM_eq_ok hf fun rule entry he => ?_
  obtain ⟨findings, _, he⟩ := bind_eq_ok.mp he
  cases he
  rfl

/-- Names occur once in what was found. -/
theorem nodup_names_foundIn {found : List (Production × List Finding)}
    (hf : registry.foundIn options names = .ok found) :
    (found.map fun entry => entry.1.name).Nodup := by
  have := registry.names_nodup
  rwa [← map_fst_foundIn hf, List.map_map] at this

/-- The status of a production follows from what was found in it. -/
theorem status?_reportOf (names : List String) (found : List (Production × List Finding))
    (name : String) : (registry.reportOf options names found).status? name =
      (found.find? fun entry => entry.1.name == name).map fun entry =>
        registry.statusOf entry.1 entry.2 :=
  lookup_map_eq found (fun entry => entry.1.name) (fun entry => registry.statusOf entry.1 entry.2) name

/-- What was found in a registered production, from which its status follows. -/
theorem exists_findings {found : List (Production × List Finding)}
    (hf : registry.foundIn options names = .ok found) {production : Production}
    (hp : production ∈ registry.productions) : ∃ findings,
      ((registry.tree production.root).observations registry options names .plain).mapM
        Observation.toFinding = .ok findings ∧ (production, findings) ∈ found ∧
      (registry.reportOf options names found).status.lookup production.name =
        some (registry.statusOf production findings) := by
  obtain ⟨entry, hm, he⟩ := exists_mem_of_mapM_eq_ok hf (mem_rules.mpr ⟨production, hp, rfl⟩)
  obtain ⟨findings, hfindings, he⟩ := bind_eq_ok.mp he
  cases he
  refine ⟨findings, hfindings, hm, ?_⟩
  have unique := find?_eq_some_of_nodup (fun entry : Production × List Finding => entry.1.name)
    (nodup_names_foundIn hf) hm
  exact (status?_reportOf names found production.name).trans (congrArg (Option.map _) unique)

/-- A later definition of its name or a structural finding blocks a production. -/
theorem statusOf_eq_blocked {production : Production} {findings : List Finding} :
    registry.statusOf production findings = .blocked ↔
      (∃ later ∈ registry.duplicates, later.name = production.name) ∨
      ∃ finding ∈ findings, finding.problem.kind.isStructural = true := by
  have blocks : (registry.duplicates.any (·.name == production.name) ||
      findings.any (·.problem.kind.isStructural)) = true ↔
        (∃ later ∈ registry.duplicates, later.name = production.name) ∨
        ∃ finding ∈ findings, finding.problem.kind.isStructural = true := by
    simp
  rw [← blocks]
  unfold statusOf
  dsimp only
  split
  · next blocked => exact ⟨fun _ => blocked, fun _ => rfl⟩
  · next free => split <;> exact ⟨nofun, fun blocked => absurd blocked free⟩

/-- Otherwise its status lists the repetitions of a body that can match nothing. -/
theorem statusOf_of_ne_blocked {production : Production} {findings : List Finding}
    (free : registry.statusOf production findings ≠ .blocked) {loops : List NodeId}
    (found : (findings.filter (·.problem.kind == .emptyRepetition)).map (·.node) = loops) :
    registry.statusOf production findings =
      if loops = [] then .valid else .emptyRepetitionAt loops := by
  subst found
  revert free
  unfold statusOf
  dsimp only
  split
  · exact fun free => absurd rfl free
  · intro _
    simp only [List.isEmpty_iff, List.map_eq_nil_iff]

/-- The structural problems that validation reports for a production are its later
definitions and the structural findings in its tree. -/
theorem exists_structural_iff {found : List (Production × List Finding)}
    (hf : registry.foundIn options names = .ok found) {production : Production}
    {findings : List Finding} (hm : (production, findings) ∈ found) :
    (∃ diagnostic ∈ (registry.reportOf options names found).diagnostics.items,
        diagnostic.production = production.name ∧ diagnostic.kind.isStructural = true) ↔
      (∃ later ∈ registry.duplicates, later.name = production.name) ∨
      ∃ finding ∈ findings, finding.problem.kind.isStructural = true := by
  constructor
  · rintro ⟨diagnostic, hd, about, structural⟩
    simp only [reportOf, List.mem_append] at hd
    rcases hd with ((hd | hd) | hd) | hd | hd
    · obtain ⟨later, hl, rfl⟩ := List.mem_map.mp hd
      exact .inl ⟨later, hl, about⟩
    · rw [kind_of_mem_startDiagnostics hd] at structural
      cases structural
    · obtain ⟨entry, he, hd⟩ := List.mem_flatMap.mp hd
      obtain ⟨finding, hfinding, rfl⟩ := List.mem_map.mp hd
      have same : entry = (production, findings) :=
        List.inj_on_of_nodup_map (nodup_names_foundIn hf) he hm about
      rw [same] at hfinding
      exact .inr ⟨finding, hfinding, structural⟩
    · obtain ⟨cycle, _, rfl⟩ := List.mem_map.mp hd
      cases structural
    · rw [kind_of_mem_unreachableDiagnostics hd] at structural
      cases structural
  · rintro (⟨later, hl, same⟩ | ⟨finding, hfinding, structural⟩)
    · exact ⟨_, List.mem_append_left _ (List.mem_append_left _ (List.mem_append_left _
        (List.mem_map_of_mem hl))), same, rfl⟩
    · refine ⟨finding.diagnostic production.name, ?_, rfl, structural⟩
      exact List.mem_append_left _ (List.mem_append_right _
        (List.mem_flatMap.mpr ⟨_, hm, List.mem_map_of_mem hfinding⟩))

/-- No problem that is found in making decisions is structural. -/
theorem Decides.not_structural {tree : Tree} {point : Point}
    (h : registry.Decides limit scope tree point) :
    ∀ warning ∈ point.warnings, warning.kind.isStructural = false := by
  intro warning hw
  cases h with
  | choice h =>
    obtain ⟨entries, warnings, conflicts, depth, he, hc, rfl⟩ := choicePoint_eq_ok h
    rcases List.mem_append.mp hw with hw | hw
    · rcases kind_of_mem_entries he warning hw with hk | hk <;> rw [hk] <;> rfl
    · rw [kind_of_mem_ambiguities hc warning hw]
      rfl
  | repetition follow h =>
    rw [kind_of_mem_loopPoint h warning hw]
    rfl

/-- The structural problems of an analysis are those that validation reports. -/
theorem exists_structural_analysis {state : σ} {analysis : Analysis}
    (analyzed : (registry.analyze options state).result = .ok analysis) :
    ∃ names found, registry.nullableNames = .ok names ∧ registry.foundIn options names = .ok found ∧
      analysis.status = (registry.reportOf options names found).status ∧
      ∀ diagnostic : Diagnostic, diagnostic.kind.isStructural = true →
        (diagnostic ∈ analysis.diagnostics.items ↔
          diagnostic ∈ (registry.reportOf options names found).diagnostics.items) := by
  obtain ⟨_, _, report, hr, outcome⟩ := analyze_eq_ok analyzed
  obtain ⟨names, hn, h⟩ := bind_eq_ok.mp hr
  obtain ⟨found, hf, h⟩ := bind_eq_ok.mp h
  cases h
  obtain ⟨_, points, hp, rfl⟩ | ⟨_, rfl⟩ := outcome
  · refine ⟨names, found, hn, hf, rfl, fun diagnostic structural =>
      ⟨fun hd => ?_, fun hd => List.mem_append_left _ hd⟩⟩
    refine (List.mem_append.mp hd).resolve_right fun hd => ?_
    obtain ⟨point, hm, hd⟩ := List.mem_flatMap.mp hd
    obtain ⟨_, _, _, _, _, decides⟩ := exists_rule_decides hp hm
    rw [decides.not_structural diagnostic hd] at structural
    cases structural
  · refine ⟨names, found, hn, hf, rfl, fun diagnostic _ =>
      ⟨fun hd => (List.mem_append.mp hd).resolve_right List.not_mem_nil, fun hd =>
        List.mem_append_left _ hd⟩⟩

/-- A node derives the empty word in the ordinary sense when it does so without repeating a
body. -/
theorem derives_nil_iff : registry.Derives .repeated id [] ↔ registry.Derives .once id [] := by
  constructor
  · intro h
    obtain ⟨whole, derived, same⟩ := (h.unrolls (Nat.le_refl 1)).exists_once
    rwa [(take_eq_nil_iff_of_pos (Nat.le_refl 1)).mp same] at derived
  · exact fun h => (h.unrolls_of_once (k := 0)).derives

/-- Where decisions were made, the repetitions of a production that is not blocked whose
bodies could run on nothing forever are its loops with a first set that can match nothing. -/
theorem emptyLoop_iff_nullable {state : σ} {analysis : Analysis}
    (analyzed : (registry.analyze options state).result = .ok analysis)
    (ran : analysis.lookaheadRan = true) {production : Production}
    (hp : production ∈ registry.productions)
    (free : analysis.status? production.name ≠ some .blocked)
    (reached : registry.Reaches production.root id) :
    registry.EmptyLoop id ↔ ∃ decision, analysis.decisions.get? id = some (.loop decision) ∧
      decision.kind.repeats = true ∧ decision.lookahead.nullable = true := by
  obtain ⟨_, ⟨final, ho⟩, _⟩ := analyze_eq_ok analyzed
  have grounded := grounded_production ho
  have inside : registry.InProduction id := ⟨production, hp, reached⟩
  have nullable {decision : LoopDecision} {guard : Option NodeId}
      (he : registry.expansion? id = some (.repetition decision.kind decision.body guard))
      (positive : 1 ≤ decision.depth) (first : registry.firstOf options.expansionLimit
        decision.body decision.depth = .ok decision.lookahead) :
      decision.lookahead.nullable = true ↔ registry.Derives .repeated decision.body [] := by
    have below : registry.InProduction decision.body :=
      inside.of_child he (by simp [Expansion.children])
    rw [below.nullable_firstOf grounded positive first, derives_nil_iff]
  constructor
  · rintro ⟨kind, body, guard, he, repeats, empty⟩
    have needs : registry.NeedsDecision analysis id :=
      ⟨production, hp, free, reached, _, he, rfl⟩
    obtain ⟨decision, decided, about⟩ := needs.exists_decidedAs analyzed ran
    cases about with
    | choice h numbers nodes first =>
      rw [he] at h
      cases h
    | @loop decision guard h positive first =>
      refine ⟨decision, decided, ?_⟩
      rw [nullable h positive first]
      rw [he] at h
      cases h
      exact ⟨repeats, empty⟩
  · rintro ⟨decision, decided, repeats, empty⟩
    obtain ⟨_, about⟩ := decidedAs_of_get? analyzed decided
    obtain _ | ⟨he, positive, first⟩ := about
    exact ⟨_, _, _, he, repeats, (nullable he positive first).mp empty⟩

/-- An analysis has one status for each registered production, in their order. A production
is blocked when a structural problem is reported for it; otherwise its status lists the
repetitions in its tree whose bodies may run again and can derive the empty word, children
before their parents, and it is valid when there are none. Where decisions were made these
are its loops whose bodies may run again and whose first sets can match nothing. -/
theorem status_exact {state : σ} {analysis : Analysis}
    (analyzed : (registry.analyze options state).result = .ok analysis) :
    analysis.status.map Prod.fst = registry.names ∧
    ∀ production ∈ registry.productions,
      (analysis.status? production.name = some .blocked ↔
        ∃ diagnostic ∈ analysis.diagnostics.items, diagnostic.production = production.name ∧
          diagnostic.kind.isStructural = true) ∧
      (analysis.status? production.name ≠ some .blocked →
        analysis.status? production.name = some (if registry.emptyLoops production.root = [] then .valid
          else .emptyRepetitionAt (registry.emptyLoops production.root)) ∧
        (∀ id, id ∈ registry.emptyLoops production.root ↔
          registry.Reaches production.root id ∧ registry.EmptyLoop id) ∧
        (analysis.lookaheadRan = true →
          (∀ id, id ∈ registry.emptyLoops production.root ↔ registry.Reaches production.root id ∧
            ∃ decision, analysis.decisions.get? id = some (.loop decision) ∧
              decision.kind.repeats = true ∧ decision.lookahead.nullable = true) ∧
          (analysis.status? production.name = some .valid → ∀ id decision,
            registry.Reaches production.root id →
              analysis.decisions.get? id = some (.loop decision) → decision.kind.repeats = true →
                decision.lookahead.nullable = false))) := by
  obtain ⟨_, ⟨final, ho⟩, _⟩ := analyze_eq_ok analyzed
  have grounded := grounded_production ho
  obtain ⟨names, found, hn, hf, statuses, structural⟩ := exists_structural_analysis analyzed
  refine ⟨?_, fun production hp => ?_⟩
  · rw [statuses, Registry.names, ← map_fst_foundIn hf]
    simp [reportOf, Function.comp_def]
  obtain ⟨findings, hfindings, hm, status⟩ := exists_findings hf hp
  have hstatus :
      analysis.status? production.name = some (registry.statusOf production findings) := by
    rw [Analysis.status?, statuses, status]
  have loops : ((registry.tree production.root).observations registry options names
      .plain).filterMap Observation.emptyLoop? = registry.emptyLoops production.root :=
    (grounded production hp).filterMap_observations grounded hn .plain
  refine ⟨?_, fun free => ?_⟩
  · rw [hstatus, Option.some_inj, statusOf_eq_blocked, ← exists_structural_iff hf hm]
    refine exists_congr fun diagnostic => ?_
    constructor
    · rintro ⟨hd, about, hs⟩
      exact ⟨(structural diagnostic hs).mpr hd, about, hs⟩
    · rintro ⟨hd, about, hs⟩
      exact ⟨(structural diagnostic hs).mp hd, about, hs⟩
  have exact : analysis.status? production.name = some (if registry.emptyLoops production.root = []
      then .valid else .emptyRepetitionAt (registry.emptyLoops production.root)) := by
    rw [hstatus] at free ⊢
    rw [statusOf_of_ne_blocked (fun blocked => free (congrArg some blocked))
      ((nodes_of_findings hfindings).trans loops)]
  have members (id : NodeId) : id ∈ registry.emptyLoops production.root ↔
      registry.Reaches production.root id ∧ registry.EmptyLoop id :=
    (grounded production hp).mem_emptyLoops
  refine ⟨exact, members, fun ran => ⟨fun id => ?_,
    fun valid id decision reached decided repeats => ?_⟩⟩
  · rw [members id]
    exact and_congr_right fun reached => emptyLoop_iff_nullable analyzed ran hp free reached
  · rw [← Bool.not_eq_true]
    intro empty
    have listed := (members id).mpr ⟨reached,
      (emptyLoop_iff_nullable analyzed ran hp free reached).mpr ⟨decision, decided, repeats, empty⟩⟩
    rw [exact] at valid
    split at valid
    · next none =>
      rw [none] at listed
      cases listed
    · cases valid

/-- The grammar `S -> (a?)*` and `T -> x`, in which `x` is not declared. -/
def idleLoop : Registry where
  nodes := #[⟨.terminal "a", {}⟩, ⟨.repetition .zeroOrOne 0 none, {}⟩,
    ⟨.repetition .zeroOrMore 1 none, {}⟩, ⟨.terminal "x", {}⟩]
  productions := [{ name := "S", root := 2 }, { name := "T", root := 3 }]
  tokens := ["a"]

/-- The status of `S` lists its outer repetition, whose first set can match nothing; a
structural problem is reported for `T`. -/
theorem status_idleLoop : ∃ analysis, (idleLoop.analyze {} ()).result = .ok analysis ∧
    analysis.status.map Prod.fst = ["S", "T"] ∧ idleLoop.emptyLoops 2 = [2] ∧
    (∃ decision, analysis.decisions.get? 2 = some (.loop decision) ∧
      decision.lookahead.nullable = true) ∧
    ∃ diagnostic ∈ analysis.diagnostics.items, diagnostic.production = "T" ∧
      diagnostic.kind.isStructural = true := by
  have computed : (idleLoop.analyze {} ()).result.toOption.map (fun analysis =>
      (analysis.lookaheadRan, analysis.status)) =
        some (true, [("S", .emptyRepetitionAt [2]), ("T", .blocked)]) := by
    decide +kernel
  obtain ⟨analysis, ha, found⟩ := Option.map_eq_some_iff.mp computed
  obtain ⟨ran, statuses⟩ := Prod.mk.inj found
  have analyzed := toOption_eq_some.mp ha
  have first : analysis.status? "S" = some (.emptyRepetitionAt [2]) :=
    congrArg (List.lookup "S") statuses
  have second : analysis.status? "T" = some .blocked := congrArg (List.lookup "T") statuses
  obtain ⟨names, each⟩ := status_exact analyzed
  obtain ⟨_, free⟩ := each { name := "S", root := 2 } List.mem_cons_self
  obtain ⟨status, _, resolved⟩ := free (by rw [first]; exact nofun)
  have loops : idleLoop.emptyLoops 2 = [2] := by
    rw [first] at status
    dsimp only at status
    split at status
    · cases status
    · exact (ProductionStatus.emptyRepetitionAt.inj (Option.some.inj status)).symm
  obtain ⟨_, decision, decided, _, empty⟩ :=
    ((resolved ran).1 2).mp (loops ▸ List.mem_singleton_self 2)
  have other : { name := "T", root := 3 } ∈ idleLoop.productions :=
    List.mem_cons_of_mem _ (List.mem_singleton_self _)
  have blocked := (each _ other).1.mp second
  exact ⟨analysis, analyzed, names, loops, ⟨decision, decided, empty⟩, blocked⟩

end Registry

end BoundedLookahead
