import BoundedLookahead.Proofs.SinglePoints

/-!
# Decision points

The table of an analysis has a decision for every choice and every repetition below the
root of a production that is not blocked, and for no other node. The decision of a choice
has an entry for each alternative, that of a repetition names its body, and each of them
compares the tokens with a first set at its depth.
-/

namespace BoundedLookahead

namespace Registry

variable {σ : Type} {registry : Registry} {options : Options} {report : Report} {limit : Nat}
  {scope : Scope} {id : NodeId}

/-- The node is a choice or a repetition in the tree of a registered production that the
analysis does not find blocked. -/
def NeedsDecision (registry : Registry) (analysis : Analysis) (id : NodeId) : Prop :=
  ∃ production ∈ registry.productions, analysis.status? production.name ≠ some .blocked ∧
    registry.Reaches production.root id ∧
    ∃ expansion, registry.expansion? id = some expansion ∧ expansion.isDecided = true

/-- The decision is about the construct of the node and compares the tokens with first sets
at its depth. -/
inductive DecidedAs (registry : Registry) (limit : Nat) (id : NodeId) : Decision → Prop
  /-- There is one entry for each alternative of a choice, in their order. -/
  | choice {alternatives : List NodeId} {decision : ChoiceDecision}
    (h : registry.expansion? id = some (.choice alternatives))
    (numbers : decision.entries.map (·.alternative) = List.range alternatives.length)
    (nodes : decision.entries.map (·.node) = alternatives)
    (first : ∀ entry ∈ decision.entries, 1 ≤ entry.depth ∧
      registry.firstOf limit entry.node entry.depth = .ok entry.lookahead) :
    DecidedAs registry limit id (.choice decision)
  /-- A repetition is decided with its kind and its body. -/
  | loop {decision : LoopDecision} {guard : Option NodeId}
    (h : registry.expansion? id = some (.repetition decision.kind decision.body guard))
    (positive : 1 ≤ decision.depth)
    (first : registry.firstOf limit decision.body decision.depth = .ok decision.lookahead) :
    DecidedAs registry limit id (.loop decision)

/-- The choices and repetitions in the tree of a node are those below it. -/
theorem Grounded.mem_decidedIds {root : NodeId} (h : registry.Grounded root) :
    id ∈ (registry.tree root).decidedIds ↔ registry.Reaches root id ∧
      ∃ expansion, registry.expansion? id = some expansion ∧ expansion.isDecided = true := by
  have decided {node : NodeId} (reached : registry.Reaches root node) :
      (registry.tree node).isDecided = true ↔
        ∃ expansion, registry.expansion? node = some expansion ∧ expansion.isDecided = true := by
    obtain ⟨expansion, he, _⟩ := (h.of_reaches reached).exists_expansion
    obtain ⟨location, ht⟩ := (h.of_reaches reached).exists_tree_eq he
    rw [ht, he]
    cases expansion <;> simp [Tree.isDecided, Tree.expansion?, Expansion.map, Expansion.isDecided]
  rw [Tree.decidedIds, List.mem_map]
  constructor
  · rintro ⟨tree, ht, rfl⟩
    obtain ⟨hs, hd⟩ := List.mem_filter.mp ht
    obtain ⟨node, reached, rfl⟩ := h.mem_subtrees.mp hs
    rw [(h.of_reaches reached).tree_id]
    exact ⟨reached, (decided reached).mp hd⟩
  · rintro ⟨reached, hd⟩
    exact ⟨registry.tree id, List.mem_filter.mpr ⟨h.mem_subtrees.mpr ⟨id, reached, rfl⟩,
      (decided reached).mpr hd⟩, (h.of_reaches reached).tree_id⟩

/-- Entries that test the alternatives one by one are about their nodes. -/
theorem nodes_of_tests {alternatives : List NodeId}
    (grounded : ∀ alternative ∈ alternatives, registry.Grounded alternative)
    {entries : List ChoiceEntry}
    (h : List.Forall₂ (registry.Tests limit scope) (alternatives.map registry.tree) entries) :
    entries.map (·.node) = alternatives := by
  induction alternatives generalizing entries with
  | nil =>
    cases h
    rfl
  | cons alternative alternatives ih =>
    rw [List.forall_mem_cons] at grounded
    obtain _ | ⟨first, rest⟩ := h
    rw [List.map_cons, ih grounded.2 rest, first.node, grounded.1.tree_id]

/-- A point at a node decides the construct of the node. -/
theorem Decides.decidedAs (hs : 0 < scope.lookahead) (hg : registry.Grounded id) {point : Point}
    (h : registry.Decides limit scope (registry.tree id) point) :
    registry.DecidedAs limit id point.decision := by
  obtain ⟨expansion, he, below⟩ := hg.exists_expansion
  obtain ⟨location, ht⟩ := hg.exists_tree_eq he
  rw [ht] at h
  cases expansion with
  | choice alternatives =>
    obtain ⟨h⟩ := h
    obtain ⟨entries, warnings, conflicts, depth, hentries, _, rfl⟩ := choicePoint_eq_ok h
    have nodes : entries.map (·.node) = alternatives :=
      nodes_of_tests below (entries_tests hentries)
    have count : entries.length = alternatives.length := by
      rw [← List.length_map, nodes]
    refine .choice he ?_ nodes fun entry hm => ?_
    · refine List.ext_getElem (by simp [count]) fun position hp _ => ?_
      have numbered := entries_numbered hentries (List.getElem?_eq_getElem (by simpa using hp))
      simpa using numbered
    · obtain ⟨alternative, _, tests⟩ := exists_tests hentries hm
      exact ⟨depth_pos tests.guard hs, tests.node ▸ tests.first⟩
  | repetition kind body guard =>
    obtain _ | ⟨follow, h⟩ := h
    obtain ⟨depth, found, set, warnings, hguard, hset, rfl⟩ := loopPoint_eq_ok h
    have construct : registry.expansion? id =
        some (.repetition kind (registry.tree body).id guard) := by
      rw [(below body (by simp [Expansion.children])).tree_id, he]
    exact .loop construct (depth_pos hguard hs) hset
  | _ => cases h

/-- A decision of an analysis is about the construct of a node of a production. -/
theorem decidedAs_of_get? {state : σ} {analysis : Analysis}
    (analyzed : (registry.analyze options state).result = .ok analysis) {decision : Decision}
    (decided : analysis.decisions.get? id = some decision) :
    registry.InProduction id ∧ registry.DecidedAs options.expansionLimit id decision := by
  obtain ⟨hc, ⟨final, ho⟩, report, hr, ⟨_, points, hp, rfl⟩ | ⟨_, rfl⟩⟩ := analyze_eq_ok analyzed
  swap
  · cases decided
  have grounded := grounded_production ho
  obtain ⟨point, hm, rfl, rfl⟩ := exists_point_of_get? decided
  obtain ⟨production, hprod, _, reached, decides⟩ := exists_production_decides grounded hp hm
  exact ⟨⟨production, hprod, reached⟩, decides.decidedAs (Options.check_eq_ok_iff.mp hc).1
    ((grounded production hprod).of_reaches reached)⟩

/-- The table has a decision for each node with a point. -/
theorem mem_ofPoints {points : List Point} :
    id ∈ (Resolution.ofPoints points).decisions ↔ id ∈ points.map (·.node) := by
  unfold Resolution.ofPoints
  rw [Std.ExtTreeMap.mem_ofList, List.map_map, List.contains_iff_mem]
  rfl

/-- The nodes with a point are the choices and repetitions of the productions that are not
blocked. -/
theorem mem_nodes_points
    (grounded : ∀ production ∈ registry.productions, registry.Grounded production.root)
    {points : List Point} (hp : registry.points report options = .ok points) :
    id ∈ points.map (·.node) ↔ ∃ production ∈ registry.productions,
      report.isBlocked production.name = false ∧ registry.Reaches production.root id ∧
      ∃ expansion, registry.expansion? id = some expansion ∧ expansion.isDecided = true := by
  rw [nodes_of_resolveRules hp, List.mem_flatMap]
  constructor
  · rintro ⟨rule, hrule, decided⟩
    obtain ⟨hrule, unblocked⟩ := List.mem_filter.mp hrule
    obtain ⟨production, hprod, rfl⟩ := mem_rules.mp hrule
    exact ⟨production, hprod, by simpa [Rule.name] using unblocked,
      (grounded production hprod).mem_decidedIds.mp decided⟩
  · rintro ⟨production, hprod, unblocked, decided⟩
    exact ⟨⟨production, registry.tree production.root⟩,
      List.mem_filter.mpr ⟨mem_rules.mpr ⟨production, hprod, rfl⟩,
        by simpa [Rule.name] using unblocked⟩,
      (grounded production hprod).mem_decidedIds.mpr decided⟩

/-- Where decisions were made, the nodes that have one are those that need one. -/
theorem mem_decisions_iff {state : σ} {analysis : Analysis}
    (analyzed : (registry.analyze options state).result = .ok analysis)
    (ran : analysis.lookaheadRan = true) :
    id ∈ analysis.decisions ↔ registry.NeedsDecision analysis id := by
  obtain ⟨_, ⟨final, ho⟩, report, hr, ⟨_, points, hp, rfl⟩ | ⟨_, rfl⟩⟩ := analyze_eq_ok analyzed
  swap
  · cases ran
  have grounded := grounded_production ho
  rw [mem_ofPoints, mem_nodes_points grounded hp]
  simp [NeedsDecision, Report.isBlocked, Report.status?, Analysis.status?]

/-- A node that needs a decision has one that is about its construct. -/
theorem NeedsDecision.exists_decidedAs {state : σ} {analysis : Analysis}
    (analyzed : (registry.analyze options state).result = .ok analysis)
    (ran : analysis.lookaheadRan = true) (needs : registry.NeedsDecision analysis id) :
    ∃ decision, analysis.decisions.get? id = some decision ∧
      registry.DecidedAs options.expansionLimit id decision := by
  have listed := (mem_decisions_iff analyzed ran).mpr needs
  obtain ⟨decision, decided⟩ :=
    Option.isSome_iff_exists.mp (Std.ExtTreeMap.mem_iff_isSome_getElem?.mp listed)
  exact ⟨decision, decided, (decidedAs_of_get? analyzed decided).2⟩

/-- An analysis decides every choice and every repetition of a production that is not
blocked, and nothing else; with left recursion it decides nothing. A choice has an entry
for each alternative, numbered in their order; a loop has the kind and the body of its
repetition. The walk that makes the decisions comes to each of these nodes once. -/
theorem decisions_exact {state : σ} {analysis : Analysis}
    (analyzed : (registry.analyze options state).result = .ok analysis) :
    ∃ report, (registry.validate options state).result = .ok report ∧
      analysis.status = report.status ∧
      (report.isLeftRecursionFree = false → analysis.lookaheadRan = false ∧ analysis.decisions = ∅) ∧
      (report.isLeftRecursionFree = true → analysis.lookaheadRan = true ∧
        (∀ id, id ∈ analysis.decisions ↔ registry.NeedsDecision analysis id) ∧
        (∀ id alternatives, registry.NeedsDecision analysis id →
          registry.expansion? id = some (.choice alternatives) →
            ∃ decision, analysis.decisions.get? id = some (.choice decision) ∧
              decision.entries.map (·.alternative) = List.range alternatives.length ∧
              decision.entries.map (·.node) = alternatives) ∧
        (∀ id kind body guard, registry.NeedsDecision analysis id →
          registry.expansion? id = some (.repetition kind body guard) →
            ∃ decision, analysis.decisions.get? id = some (.loop decision) ∧
              decision.kind = kind ∧ decision.body = body) ∧
        ∃ engine points, Engine.start registry report options = .ok engine ∧
          (Engine.oracle.resolveRules report options engine.nullable registry.rules engine).result =
            .ok points ∧
          analysis.decisions = (Resolution.ofPoints points).decisions ∧
          (points.map (·.node)).Nodup ∧
          ∀ id, id ∈ points.map (·.node) ↔ registry.NeedsDecision analysis id) := by
  obtain ⟨hc, ⟨final, ho⟩, report, hr, outcome⟩ := analyze_eq_ok analyzed
  have validated : (registry.validate options state).result = .ok report := by
    rw [validate_result, hr]
  obtain ⟨free, points, hp, rfl⟩ | ⟨recursive, rfl⟩ := outcome
  swap
  · refine ⟨report, validated, rfl, fun _ => ⟨rfl, rfl⟩, fun free => ?_⟩
    rw [recursive] at free
    cases free
  refine ⟨report, validated, rfl, fun recursive => ?_, fun _ =>
    ⟨rfl, fun id => mem_decisions_iff analyzed rfl, fun id alternatives needs he => ?_,
      fun id kind body guard needs he => ?_, ?_⟩⟩
  · rw [free] at recursive
    cases recursive
  · obtain ⟨decision, decided, about⟩ := needs.exists_decidedAs analyzed rfl
    cases about with
    | choice h numbers nodes first =>
      rw [he] at h
      cases h
      exact ⟨_, decided, numbers, nodes⟩
    | loop h positive first =>
      rw [he] at h
      cases h
  · obtain ⟨decision, decided, about⟩ := needs.exists_decidedAs analyzed rfl
    cases about with
    | choice h numbers nodes first =>
      rw [he] at h
      cases h
    | loop h positive first =>
      rw [he] at h
      cases h
      exact ⟨_, decided, rfl, rfl⟩
  · have started := Engine.start_eq_ok.mpr ⟨free, hc, ⟨final, ho⟩, rfl⟩
    have simulated : (Engine.serving registry report.nullable options.expansionLimit).relates
        (Engine.oracle.resolveRules report options report.nullable registry.rules)
        (registry.points report options) :=
      Engine.oracle_simulates.resolveRules report options report.nullable fun _ _ _ _ => trivial
    obtain ⟨walked, _⟩ := simulated
      { registry, nullable := report.nullable, limit := options.expansionLimit } ⟨rfl, rfl, rfl⟩
    exact ⟨_, points, started, walked.trans hp, rfl, nodup_points ho hp,
      fun id => mem_ofPoints.symm.trans (mem_decisions_iff analyzed rfl)⟩

/-- The grammar `S -> (a | b)*` and `T -> a | x`, in which `x` is not declared. -/
def blockedChoice : Registry where
  nodes := #[⟨.terminal "a", {}⟩, ⟨.terminal "b", {}⟩, ⟨.choice [0, 1], {}⟩,
    ⟨.repetition .zeroOrMore 2 none, {}⟩, ⟨.terminal "a", {}⟩, ⟨.terminal "x", {}⟩,
    ⟨.choice [4, 5], {}⟩]
  productions := [{ name := "S", root := 3 }, { name := "T", root := 6 }]
  tokens := ["a", "b"]

/-- The repetition and the choice of `S` are decided; the choice of `T` is not. -/
theorem decisions_blockedChoice : ∃ analysis choice loop,
    (blockedChoice.analyze {} ()).result = .ok analysis ∧
      analysis.decisions.get? 2 = some (.choice choice) ∧
      choice.entries.map (·.alternative) = [0, 1] ∧ choice.entries.map (·.node) = [0, 1] ∧
      analysis.decisions.get? 3 = some (.loop loop) ∧ loop.kind = .zeroOrMore ∧ loop.body = 2 ∧
      6 ∉ analysis.decisions := by
  have computed : (blockedChoice.analyze {} ()).result.toOption.map (fun analysis =>
      (analysis.lookaheadRan, analysis.status)) =
        some (true, [("S", .valid), ("T", .blocked)]) := by
    decide +kernel
  obtain ⟨analysis, ha, found⟩ := Option.map_eq_some_iff.mp computed
  obtain ⟨ran, statuses⟩ := Prod.mk.inj found
  have analyzed := toOption_eq_some.mp ha
  obtain ⟨report, _, _, recursive, free⟩ := decisions_exact analyzed
  have isFree : report.isLeftRecursionFree = true := by
    rw [← Bool.not_eq_false]
    intro hf
    rw [(recursive hf).1] at ran
    cases ran
  obtain ⟨_, keys, choices, loops, _⟩ := free isFree
  have status (name : String) : analysis.status? name =
      [("S", ProductionStatus.valid), ("T", .blocked)].lookup name := congrArg _ statuses
  have below : blockedChoice.Reaches 3 2 := .single (List.mem_singleton_self 2)
  have needs {id : NodeId} (reached : blockedChoice.Reaches 3 id)
      {expansion : Expansion NodeId} (he : blockedChoice.expansion? id = some expansion)
      (hd : expansion.isDecided = true) : blockedChoice.NeedsDecision analysis id :=
    ⟨_, List.mem_cons_self, by rw [status]; decide, reached, expansion, he, hd⟩
  obtain ⟨choice, hchoice, numbers, nodes⟩ := choices 2 [0, 1] (needs below rfl rfl) rfl
  obtain ⟨loop, hloop, kind, body⟩ := loops 3 _ _ _ (needs .refl rfl rfl) rfl
  refine ⟨analysis, choice, loop, analyzed, hchoice, numbers, nodes, hloop, kind, body,
    fun hm => ?_⟩
  obtain ⟨production, hprod, unblocked, reached, _⟩ := (keys 6).mp hm
  obtain ⟨_, ⟨final, ho⟩, _⟩ := analyze_eq_ok analyzed
  have listed := (grounded_production ho _ hprod).mem_ids.mpr reached
  have ids : (blockedChoice.tree 3).ids = [3, 2, 0, 1] := by decide +kernel
  rcases List.mem_cons.mp hprod with rfl | hprod
  · rw [ids] at listed
    simp at listed
  · obtain rfl := List.mem_singleton.mp hprod
    exact unblocked (status "T")

end Registry

end BoundedLookahead
