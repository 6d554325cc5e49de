import BoundedLookahead.Proofs.Continuations
import BoundedLookahead.Proofs.Directives
import BoundedLookahead.Proofs.Reports

/-!
# Conflicts of loops

A repetition is warned of when its body can begin like what comes after it inside its
own production, as far as its decision looks. Where every node derives something the
warning is exact. Without it, a body that cannot match nothing is not entered on the
tokens that come after the repetition.
-/

namespace BoundedLookahead

/-- A repetition without overriding guard, whose body cannot match nothing, is entered
only on tokens that its set accepts. -/
theorem LoopDecision.enters_eq_accepts {decision : LoopDecision} {upcoming : List Token}
    (plain : Guard.overridesIn decision.guard = false) (full : decision.lookahead.nullable = false) :
    decision.enters upcoming = decision.lookahead.accepts upcoming := by
  unfold enters entersWith
  cases hg : decision.guard with
  | none => rfl
  | some guard =>
    rw [hg] at plain
    simp [Guard.admits_of_not_overrides plain, full]

namespace Registry

variable {registry : Registry} {options : Options} {report : Report} {limit : Nat} {scope : Scope}
  {final : Owners} {id body : NodeId} {depth : Nat}

/-- Words of the body and words that come after the repetition cannot be told apart at
the depth. -/
def Clashes (registry : Registry) (id body : NodeId) (depth : Nat) : Prop :=
  ∃ own after, registry.Derives .once body own ∧ own ≠ [] ∧ registry.Follows id after ∧ after ≠ [] ∧
    (own.take depth <+: after.take depth ∨ after.take depth <+: own.take depth)

/-- A walk arrives at every node below the root of a production with what can come after
the node. -/
theorem exists_visit_follows (ho : registry.owners = .ok final) (productive : registry.Productive)
    (deep : 1 ≤ scope.followDepth) {production : Production} (hp : production ∈ registry.productions)
    (reached : registry.Reaches production.root id) {points : List Point}
    (hv : (registry.oracle limit).visit scope FirstSet.epsilon (registry.tree production.root) =
      .ok points) :
    ∃ follow inner, (registry.oracle limit).visit scope follow (registry.tree id) = .ok inner ∧
      inner ⊆ points ∧ follow.Shows scope.followDepth (registry.Follows id) := by
  have grounded := grounded_production ho
  have start : FirstSet.epsilon.Shows scope.followDepth (registry.Follows production.root) :=
    FirstSet.shows_epsilon.congr fun word => (follows_root ho hp).symm
  refine (grounded production hp).exists_visit_below
    (P := fun node follow => follow.Shows scope.followDepth (registry.Follows node)) start ?_ hv
    reached
  intro parent place child follow next above stands hn shows
  exact shows_followAt grounded productive deep ho ⟨production, hp, above⟩ stands shows hn

/-- A repetition of a production looks at least one token ahead and no further than the
walk over the production keeps what follows. -/
theorem loop_depth_bounds (positive : 0 < options.lookahead) {nullable : List String} {name : String}
    {tree : Tree} {location : Location} {kind : RepetitionKind} {inner : Tree} {guard : Option Tree}
    (inside : Tree.node id location (.repetition kind inner guard) ∈ tree.subtrees)
    {found : Option Guard}
    (h : (registry.oracle limit).guard (options.scope nullable name tree)
      (loopDirective? inner guard) = .ok (depth, found)) :
    1 ≤ depth ∧ depth ≤ (options.scope nullable name tree).followDepth := by
  rw [(gives_of_guard h).depth_eq]
  refine ⟨Scope.depthOf_pos positive, Scope.depthOf_le (Nat.le_max_right _ _) ?_⟩
  intro directive hd amount ha
  exact Nat.le_trans (Tree.amount_le_of_loopDirective hd inside ha) (Nat.le_max_left _ _)

variable {set follow : FirstSet}

/-- Sets of the body and of what comes after the repetition are in conflict when their
words clash. -/
theorem overlaps_iff_clashes (hd : 1 ≤ depth) {bound : Nat} (enough : depth ≤ bound)
    (own : set.Shows depth (registry.Derives .once body))
    (after : follow.Shows bound (registry.Follows id)) :
    set.overlaps (follow.truncate depth) = true ↔ registry.Clashes id body depth :=
  own.overlaps_iff hd (after.truncate hd enough)

/-- Words clash when the set of the body accepts tokens that begin like what comes after
the repetition. -/
theorem Clashes.of_accepts (hd : 1 ≤ depth) (own : set.Shows depth (registry.Derives .once body))
    {after : Word} (comes : registry.Follows id after) (hne' : after ≠ []) {upcoming : List Token}
    (starts : after.take depth <+: upcoming) (accepted : set.accepts upcoming = true) :
    registry.Clashes id body depth := by
  obtain ⟨word, hw, fits⟩ := FirstSet.accepts_iff.mp accepted
  obtain ⟨whole, derived, hne, rfl⟩ := (own.mem_words_iff hd).mp hw
  exact ⟨whole, after, derived, hne, comes, hne', List.prefix_or_prefix_of_prefix fits starts⟩

/-- Where nothing clashes, a body that cannot match nothing is not entered on what comes
after the repetition, nor on tokens that begin like it. -/
theorem Clashes.not_enters {decision : LoopDecision} (hd : 1 ≤ decision.depth)
    (own : decision.lookahead.Shows decision.depth (registry.Derives .once body))
    (plain : Guard.overridesIn decision.guard = false) (full : ¬registry.Derives .once body [])
    (apart : ¬registry.Clashes id body decision.depth) {after : Word}
    (comes : registry.Follows id after) :
    decision.enters after = false ∧
      (after ≠ [] → ∀ upcoming, after.take decision.depth <+: upcoming →
        decision.enters upcoming = false) := by
  have total : decision.lookahead.nullable = false := by
    rw [← Bool.not_eq_true, ← FirstSet.nil_mem, own.shown]
    rintro ⟨whole, derived, hw⟩
    rw [(take_eq_nil_iff_of_pos hd).mp hw] at derived
    exact full derived
  have refused (hne : after ≠ []) {upcoming : List Token}
      (starts : after.take decision.depth <+: upcoming) : decision.enters upcoming = false := by
    rw [LoopDecision.enters_eq_accepts plain total, ← Bool.not_eq_true]
    exact fun accepted => apart (.of_accepts hd own comes hne starts accepted)
  refine ⟨?_, fun hne upcoming starts => refused hne starts⟩
  by_cases hne : after = []
  · rw [hne, LoopDecision.enters_eq_accepts plain total, ← Bool.not_eq_true, FirstSet.accepts_iff]
    rintro ⟨word, hw, fits⟩
    exact (own.bounded word hw).1 (List.prefix_nil.mp fits)
  · exact refused hne (List.take_prefix _ _)

/-- The decision of a repetition of a production that is resolved, with its warnings: the
body is tested with the words that it derives, and the warning is about those that
clash. -/
theorem exists_loop_decision (ho : registry.owners = .ok final) (productive : registry.Productive)
    (positive : 0 < options.lookahead) {points : List Point}
    (hp : registry.points report options = .ok points) {production : Production}
    (hprod : production ∈ registry.productions) (unblocked : report.isBlocked production.name = false)
    (reached : registry.Reaches production.root id) {kind : RepetitionKind} {guard : Option NodeId}
    (he : registry.expansion? id = some (.repetition kind body guard)) :
    ∃ decision warnings, (⟨id, .loop decision, warnings⟩ : Point) ∈ points ∧ 1 ≤ decision.depth ∧
      decision.lookahead.Shows decision.depth (registry.Derives .once body) ∧
      (Guard.overridesIn decision.guard = false →
        (registry.Clashes id body decision.depth →
          ∃ warning, warnings = [warning] ∧ warning.kind = .loopConflict) ∧
        (¬registry.Clashes id body decision.depth → warnings = [])) := by
  have grounded := grounded_production ho
  obtain ⟨all, hall, among⟩ := exists_visit_production hp hprod unblocked
  have deep : 1 ≤ (options.scope report.nullable production.name
      (registry.tree production.root)).followDepth :=
    Nat.le_trans positive (Nat.le_max_right _ _)
  obtain ⟨follow, inner, hv, inAll, after⟩ :=
    exists_visit_follows ho productive deep hprod reached hall
  have standing := (grounded production hprod).mem_subtrees.mpr ⟨id, reached, rfl⟩
  have inside : registry.InProduction id := ⟨production, hprod, reached⟩
  have grounds := inside.grounded_of grounded
  have hc : body ∈ (Expansion.repetition kind body guard).children := by simp [Expansion.children]
  have below : registry.InProduction body := inside.of_child he hc
  obtain ⟨location, ht⟩ := grounds.exists_tree_eq he
  rw [ht] at hv standing
  obtain ⟨point, _, _, h, hpoint, _⟩ := exists_visit_repetition hv
  obtain ⟨depth, found, set, hg, hset, rfl⟩ := loopPoint_cases h
  obtain ⟨hd, enough⟩ := loop_depth_bounds positive standing hg
  rw [(grounds.of_expansion he body hc).tree_id] at hset hpoint
  have own := below.shows_firstOf grounded productive hd hset
  have exact := overlaps_iff_clashes hd enough own after
  refine ⟨_, _, among (inAll hpoint), hd, own, fun plain => ⟨fun clash => ?_, fun apart => ?_⟩⟩
  · have conflict : (set.conflicts (follow.truncate depth)).isEmpty = false := by
      simpa [FirstSet.overlaps] using exact.mpr clash
    rw [plain, conflict]
    exact ⟨_, rfl, rfl⟩
  · have quiet : (set.conflicts (follow.truncate depth)).isEmpty = true := by
      simpa [FirstSet.overlaps] using mt exact.mp apart
    rw [plain, quiet]
    rfl

/-- The warnings of repetitions are exact. Those that an analysis reports are the ones of its
repetitions, each repetition once. Where every node derives something, a repetition without
overriding guard is warned of, once, when words of its body clash with words that come after
it in its production. Otherwise a body that cannot match nothing is not entered on tokens
that begin like what comes after. -/
theorem loopConflict_exact {σ : Type} {state : σ} {analysis : Analysis}
    (analyzed : (registry.analyze options state).result = .ok analysis)
    (ran : analysis.lookaheadRan = true) (productive : registry.Productive) :
    (∃ loops : List NodeId, loops.Nodup ∧
      (∀ id, id ∈ loops ↔ ∃ decision, analysis.decisions.loop? id = some decision) ∧
      analysis.diagnostics.items.filter (·.kind = .loopConflict) =
        loops.flatMap fun id => (registry.warningsAt options id).filter (·.kind = .loopConflict)) ∧
    ∀ production ∈ registry.productions, analysis.status? production.name ≠ some .blocked →
      ∀ id, registry.Reaches production.root id →
      ∀ kind body guard, registry.expansion? id = some (.repetition kind body guard) →
      ∃ decision, analysis.decisions.loop? id = some decision ∧
        (Guard.overridesIn decision.guard = false →
          ((∃ warning, registry.warningsAt options id = [warning] ∧ warning.kind = .loopConflict ∧
            warning ∈ analysis.diagnostics.items) ↔ registry.Clashes id body decision.depth) ∧
          (registry.warningsAt options id = [] ↔ ¬registry.Clashes id body decision.depth) ∧
          (registry.warningsAt options id = [] → ¬registry.Derives .once body [] →
            ∀ after, registry.Follows id after → decision.enters after = false ∧
              (after ≠ [] → ∀ upcoming, after.take decision.depth <+: upcoming →
                decision.enters upcoming = false))) := by
  refine ⟨exists_loops analyzed, fun production hprod unblocked id reached kind body guard he => ?_⟩
  obtain ⟨hc, ⟨final, ho⟩, report, hr, outcome⟩ := analyze_eq_ok analyzed
  obtain ⟨_, points, hp, rfl⟩ | ⟨_, rfl⟩ := outcome
  swap
  · cases ran
  have positive : 0 < options.lookahead := (Options.check_eq_ok_iff.mp hc).1
  have resolved : report.isBlocked production.name = false := by
    simpa [Report.isBlocked, Report.status?, Analysis.status?] using unblocked
  obtain ⟨decision, warnings, hm, hd, own, exact⟩ :=
    exists_loop_decision ho productive positive hp hprod resolved reached he
  have held : (Resolution.ofPoints points).decisions.get? id = some (.loop decision) :=
    get?_ofPoints (nodup_points ho hp) hm
  have warned : registry.warningsAt options id = warnings := warningsAt_eq_warnings ho hr hp hm
  refine ⟨decision, DecisionTable.loop?_eq_some.mpr held, fun plain => ?_⟩
  obtain ⟨loud, quiet⟩ := exact plain
  rw [← warned] at loud quiet
  have silent : registry.warningsAt options id = [] ↔ ¬registry.Clashes id body decision.depth := by
    refine ⟨fun none clash => ?_, quiet⟩
    obtain ⟨warning, one, _⟩ := loud clash
    rw [none] at one
    cases one
  refine ⟨⟨?_, fun clash => ?_⟩, silent, fun none full after comes => ?_⟩
  · rintro ⟨warning, one, _⟩
    by_contra apart
    rw [quiet apart] at one
    cases one
  · obtain ⟨warning, one, hk⟩ := loud clash
    have made : warning ∈ registry.warningsAt options id := one ▸ List.mem_singleton_self _
    exact ⟨warning, one, hk, mem_diagnostics_of_mem_warningsAt analyzed ran made⟩
  · exact Clashes.not_enters hd own plain full (silent.mp none) comes

/-- The grammar `S -> T a* a`, `T -> a* b`. -/
def greedyPrefix : Registry where
  nodes := #[⟨.nonTerminal "T" [], {}⟩, ⟨.terminal "a", {}⟩, ⟨.repetition .zeroOrMore 1 none, {}⟩,
    ⟨.terminal "a", {}⟩, ⟨.sequence [0, 2, 3], {}⟩, ⟨.terminal "a", {}⟩,
    ⟨.repetition .zeroOrMore 5 none, {}⟩, ⟨.terminal "b", {}⟩, ⟨.sequence [6, 7], {}⟩]
  productions := [{ name := "S", root := 4 }, { name := "T", root := 8 }]
  tokens := ["a", "b"]

/-- Every node of that grammar derives something. -/
theorem greedyPrefix_productive : greedyPrefix.Productive := by
  have own : greedyPrefix.Derives .once 1 ["a"] := .terminal rfl
  have first : greedyPrefix.expansion? 2 = some (.repetition .zeroOrMore 1 none) := rfl
  have loop : greedyPrefix.Derives .once 2 [] := .repetition [] first (Nat.zero_le 1) (by simp)
  have token : greedyPrefix.Derives .once 3 ["a"] := .terminal rfl
  have own' : greedyPrefix.Derives .once 5 ["a"] := .terminal rfl
  have second : greedyPrefix.expansion? 6 = some (.repetition .zeroOrMore 5 none) := rfl
  have loop' : greedyPrefix.Derives .once 6 [] := .repetition [] second (Nat.zero_le 1) (by simp)
  have token' : greedyPrefix.Derives .once 7 ["b"] := .terminal rfl
  have row' : greedyPrefix.Derives .once 8 ["b"] :=
    .sequence [(6, []), (7, ["b"])] rfl (by simp [loop', token'])
  have call : greedyPrefix.Derives .once 0 ["b"] := .nonTerminal rfl rfl row'
  have row : greedyPrefix.Derives .once 4 ["b", "a"] :=
    .sequence [(0, ["b"]), (2, []), (3, ["a"])] rfl (by simp [call, loop, token])
  intro id inside
  have known : id ∈ List.range 9 := inside.mem_of_closed (by decide) (by decide)
  have bound : id < 9 := List.mem_range.mp known
  interval_cases id
  · exact ⟨_, call⟩
  · exact ⟨_, own⟩
  · exact ⟨_, loop⟩
  · exact ⟨_, token⟩
  · exact ⟨_, row⟩
  · exact ⟨_, own'⟩
  · exact ⟨_, loop'⟩
  · exact ⟨_, token'⟩
  · exact ⟨_, row'⟩

/-- The loop of `S` is warned of, and nothing else: a run of it begins like the `a` that comes
after it. That of `T` is left on the `b` that comes after it. -/
theorem loopConflict_greedyPrefix : ∃ analysis,
    (greedyPrefix.analyze {} ()).result = .ok analysis ∧ analysis.lookaheadRan = true ∧
      (∃ warning, greedyPrefix.warningsAt {} 2 = [warning] ∧ warning.kind = .loopConflict ∧
        analysis.diagnostics.items.filter (·.kind = .loopConflict) = [warning]) ∧
      greedyPrefix.warningsAt {} 6 = [] ∧ ¬greedyPrefix.Clashes 6 5 1 ∧
      ∃ decision, analysis.decisions.loop? 6 = some decision ∧ decision.enters ["b"] = false := by
  have computed : ((greedyPrefix.analyze {} ()).result.toOption.map fun analysis =>
      analysis.lookaheadRan &&
        (analysis.status? "S" == some .valid && analysis.status? "T" == some .valid) &&
        (analysis.decisions.loop? 2).map (fun decision => (decision.guard, decision.depth)) ==
          some (none, 1) &&
        (analysis.decisions.loop? 6).map (fun decision => (decision.guard, decision.depth)) ==
          some (none, 1) &&
        analysis.decisions.toList.map Prod.fst == [2, 6]) = some true := by
    decide +kernel
  have quiet : greedyPrefix.warningsAt {} 6 = [] := by decide +kernel
  obtain ⟨analysis, ha, found⟩ := Option.map_eq_some_iff.mp computed
  simp only [Bool.and_eq_true, beq_iff_eq] at found
  obtain ⟨⟨⟨⟨ran, validS, validT⟩, made⟩, made'⟩, decided⟩ := found
  have analyzed := toOption_eq_some.mp ha
  have productive := greedyPrefix_productive
  have own : greedyPrefix.Derives .once 1 ["a"] := .terminal rfl
  have token : greedyPrefix.Derives .once 3 ["a"] := .terminal rfl
  have token' : greedyPrefix.Derives .once 7 ["b"] := .terminal rfl
  have loop : greedyPrefix.expansion? 2 = some (.repetition .zeroOrMore 1 none) := rfl
  have loop' : greedyPrefix.expansion? 6 = some (.repetition .zeroOrMore 5 none) := rfl
  have stands : greedyPrefix.Stands 4 (.before [3]) 2 :=
    ⟨_, rfl, List.mem_cons_of_mem _ List.mem_cons_self, rfl⟩
  have stands' : greedyPrefix.Stands 8 (.before [7]) 6 := ⟨_, rfl, List.mem_cons_self, rfl⟩
  have inS : { name := "S", root := 4 } ∈ greedyPrefix.productions := List.mem_cons_self
  have inT : { name := "T", root := 8 } ∈ greedyPrefix.productions :=
    List.mem_cons_of_mem _ List.mem_cons_self
  have after : greedyPrefix.Follows 2 ["a"] :=
    .before stands ⟨[(3, ["a"])], rfl, rfl, by simp [token]⟩ (.root inS)
  have after' : greedyPrefix.Follows 6 ["b"] :=
    .before stands' ⟨[(7, ["b"])], rfl, rfl, by simp [token']⟩ (.root inT)
  have full : ¬greedyPrefix.Derives .once 5 [] := by
    intro derived
    cases derived.eq_of_terminal (rfl : greedyPrefix.expansion? 5 = some (.terminal "a"))
  obtain ⟨⟨loops, nodup, listed, items⟩, each⟩ := loopConflict_exact analyzed ran productive
  obtain ⟨decision, hd, exact⟩ :=
    each _ inS (by rw [validS]; simp) _ (.single stands.of_child) _ _ _ loop
  obtain ⟨decision', hd', exact'⟩ :=
    each _ inT (by rw [validT]; simp) _ (.single stands'.of_child) _ _ _ loop'
  rw [hd, Option.map_some, Option.some_inj, Prod.mk.injEq] at made
  rw [hd', Option.map_some, Option.some_inj, Prod.mk.injEq] at made'
  obtain ⟨plain, depth⟩ := made
  obtain ⟨plain', depth'⟩ := made'
  obtain ⟨loud, _⟩ := exact (by rw [plain]; rfl)
  obtain ⟨_, silent, refuses⟩ := exact' (by rw [plain']; rfl)
  rw [depth] at loud
  rw [depth'] at silent
  have clash : greedyPrefix.Clashes 2 1 1 :=
    ⟨["a"], ["a"], own, by simp, after, by simp, .inl (List.prefix_refl _)⟩
  obtain ⟨warning, warned, hk, _⟩ := loud.mpr clash
  have both : loops.Perm [2, 6] := by
    refine (List.perm_ext_iff_of_nodup nodup (by decide)).mpr fun id => (listed id).trans ?_
    rw [← decided]
    constructor
    · rintro ⟨other, ho⟩
      have held := Std.ExtTreeMap.mem_toList_iff_getElem?_eq_some.mpr
        (DecisionTable.loop?_eq_some.mp ho)
      exact List.mem_map_of_mem held
    · rw [decided, List.mem_pair]
      rintro (rfl | rfl)
      · exact ⟨decision, hd⟩
      · exact ⟨decision', hd'⟩
  have single : analysis.diagnostics.items.filter (·.kind = .loopConflict) = [warning] := by
    rw [← List.perm_singleton, items]
    refine (both.flatMap_right _).trans ?_
    simp [warned, quiet, hk]
  exact ⟨analysis, analyzed, ran, ⟨warning, warned, hk, single⟩, quiet, silent.mp quiet, decision',
    hd', (refuses quiet full _ after').1⟩

end Registry

end BoundedLookahead
