import BoundedLookahead.Proofs.ResolvedNodes
import BoundedLookahead.Proofs.Selection

/-!
# Undisputed choices

A choice for which an analysis makes no warning takes an alternative whenever the
tokens start like it. How far the alternatives look matters: a word at the depth of
an alternative is only cut off where an earlier alternative looks deeper, so there
the tokens have to start like the alternative at the greater depth as well.
-/

namespace BoundedLookahead

namespace Registry

variable {σ : Type} {registry : Registry} {options : Options}

/-- The warnings that are made in deciding a node. -/
def warningsAt (registry : Registry) (options : Options) (id : NodeId) : List Diagnostic :=
  let points : Except AnalysisError (List Point) := do
    registry.points (← registry.validated options) options
  match points with
  | .ok points => (points.filter fun point => point.node == id).flatMap (·.warnings)
  | .error _ => []

/-- The warnings at the nodes are those of the points. -/
theorem warningsAt_eq {report : Report} {points : List Point}
    (hr : registry.validated options = .ok report) (hp : registry.points report options = .ok points)
    (id : NodeId) : registry.warningsAt options id =
      (points.filter fun point => point.node == id).flatMap (·.warnings) := by
  unfold warningsAt
  rw [hr, ok_bind, hp]

/-- What is warned of at a node is among the diagnostics of the analysis. -/
theorem mem_diagnostics_of_mem_warningsAt {state : σ} {analysis : Analysis}
    (h : (registry.analyze options state).result = .ok analysis) (ran : analysis.lookaheadRan = true)
    {id : NodeId} {warning : Diagnostic} (hw : warning ∈ registry.warningsAt options id) :
    warning ∈ analysis.diagnostics.items := by
  obtain ⟨_, _, report, hr, ⟨_, points, hp, rfl⟩ | ⟨_, rfl⟩⟩ := analyze_eq_ok h
  · rw [warningsAt_eq hr hp] at hw
    obtain ⟨point, hm, hw⟩ := List.mem_flatMap.mp hw
    exact List.mem_append_right _
      (List.mem_flatMap.mpr ⟨point, List.mem_of_mem_filter hm, hw⟩)
  · cases ran

/-- A problem that is found in making decisions is warned of at some node. -/
theorem exists_mem_warningsAt {state : σ} {analysis : Analysis}
    (h : (registry.analyze options state).result = .ok analysis) {warning : Diagnostic}
    (hw : warning ∈ analysis.diagnostics.items)
    (hk : warning.kind ∈ DiagnosticKind.ofDecisions) :
    ∃ id, warning ∈ registry.warningsAt options id := by
  obtain ⟨_, _, report, hr, ⟨_, points, hp, rfl⟩ | ⟨_, rfl⟩⟩ := analyze_eq_ok h
  · rcases List.mem_append.mp hw with hw | hw
    · exact absurd hk (kind_not_mem_ofDecisions hr warning hw)
    · obtain ⟨point, hm, hw⟩ := List.mem_flatMap.mp hw
      refine ⟨point.node, ?_⟩
      rw [warningsAt_eq hr hp]
      exact List.mem_flatMap.mpr ⟨point, List.mem_filter.mpr ⟨hm, by simp⟩, hw⟩
  · rcases List.mem_append.mp hw with hw | hw
    · exact absurd hk (kind_not_mem_ofDecisions hr warning hw)
    · cases hw

/-- A choice without overriding guards, for which no ambiguity and no unreachable
alternative is reported, takes alternative `j` on all tokens that start with a word
of its set and, where an earlier alternative looks deeper, with a word of its first
set at that depth too. Nothing is said of tokens that also start with a cut word of
an earlier alternative that looks less far. The warnings at the node are the share of the
node in the diagnostics of the analysis: each of them is among these, and these have no
other ones about decisions than those at some node. -/
theorem select_without_warning {state : σ} {analysis : Analysis}
    (analyzed : (registry.analyze options state).result = .ok analysis) {id : NodeId}
    {decision : ChoiceDecision} (decided : analysis.decisions.choice? id = some decision)
    (plain : ∀ entry ∈ decision.entries, Guard.overridesIn entry.guard = false)
    (quiet : ∀ warning ∈ registry.warningsAt options id,
      warning.kind ≠ .ambiguity ∧ warning.kind ≠ .unreachableAlternative)
    {j : Nat} {entry : ChoiceEntry} (hj : decision.entries[j]? = some entry)
    {word : Word} (hw : word ∈ entry.lookahead.words) {upcoming : List Token}
    (starts : word <+: upcoming)
    (deeper : ∀ other ∈ decision.entries.take j, entry.depth < other.depth →
      ∃ set, registry.firstOf options.expansionLimit entry.node other.depth = .ok set ∧
        ∃ longer ∈ set.words, longer <+: upcoming)
    (shallower : ∀ other ∈ decision.entries.take j, other.depth < entry.depth →
      ∀ cut ∈ other.lookahead.words, cut <+: upcoming → cut.length ≠ other.depth) :
    decision.select upcoming = some j := by
  obtain ⟨hc, ⟨final, ho⟩, report, hr, ⟨_, points, hp, rfl⟩ | ⟨_, rfl⟩⟩ := analyze_eq_ok analyzed
  swap
  · cases decided
  obtain ⟨point, hpoint, hn, hdec⟩ := exists_point decided
  obtain ⟨rule, hrule, _, below, hb, hdecides⟩ := exists_rule_decides hp hpoint
  obtain ⟨production, hprod, rfl⟩ := List.mem_map.mp hrule
  rw [warningsAt_eq hr hp] at quiet
  have pointQuiet : ∀ warning ∈ point.warnings,
      warning.kind ≠ .ambiguity ∧ warning.kind ≠ .unreachableAlternative := fun warning hwarn =>
    quiet warning (List.mem_flatMap.mpr ⟨point, List.mem_filter.mpr ⟨hpoint, by simpa using hn⟩, hwarn⟩)
  obtain ⟨node, location, alternatives, rfl, hchoice⟩ := hdecides.exists_choice hdec
  exact (apart_of_choicePoint hchoice hdec pointQuiet).select
    (grounded_production ho) (InProduction.alternatives ho hprod hb)
    (Options.check_eq_ok_iff.mp hc).1 plain hj (FirstSet.accepts_iff.mpr ⟨word, hw, starts⟩)
    (fun other hother hlt => by
      obtain ⟨set, hset, longer⟩ := deeper other hother hlt
      exact ⟨set, hset, FirstSet.accepts_iff.mpr longer⟩)
    shallower

/-- The grammar `S -> LOOKAHEAD(2) a b | a c`. -/
def localDepth : Registry where
  nodes := #[⟨.lookahead { amount := some 2 }, {}⟩, ⟨.terminal "a", {}⟩, ⟨.terminal "b", {}⟩,
    ⟨.sequence [0, 1, 2], {}⟩, ⟨.terminal "a", {}⟩, ⟨.terminal "c", {}⟩, ⟨.sequence [4, 5], {}⟩,
    ⟨.choice [3, 6], {}⟩]
  productions := [{ name := "S", root := 7 }]
  tokens := ["a", "b", "c"]

/-- The decision of that grammar, with the analysis that makes it. No diagnostic is
made and no guard overrides. -/
theorem exists_localDepth : ∃ analysis decision first second,
    (localDepth.analyze {} ()).result = .ok analysis ∧ analysis.lookaheadRan = true ∧
      analysis.decisions.choice? 7 = some decision ∧
      (∀ entry ∈ decision.entries, Guard.overridesIn entry.guard = false) ∧
      (∀ warning ∈ localDepth.warningsAt {} 7,
        warning.kind ≠ .ambiguity ∧ warning.kind ≠ .unreachableAlternative) ∧
      decision.entries = [first, second] ∧ first.depth = 2 ∧ second.depth = 1 ∧ second.node = 6 ∧
      ["a"] ∈ second.lookahead.words ∧ decision.select ["a", "b"] = some 0 := by
  have computed : ((localDepth.analyze {} ()).result.toOption.bind fun analysis =>
      (analysis.decisions.choice? 7).map fun decision =>
        analysis.lookaheadRan && analysis.diagnostics.items.isEmpty &&
          (decision.entries.all fun entry => !Guard.overridesIn entry.guard) &&
          decision.entries.map (fun entry => (entry.depth, entry.node)) == [(2, 3), (1, 6)] &&
          decision.entries.map (fun entry => entry.lookahead.words.toList) ==
            [[["a", "b"]], [["a"]]] &&
          decision.select ["a", "b"] == some 0) = some true := by
    decide +kernel
  obtain ⟨analysis, ha, found⟩ := Option.bind_eq_some_iff.mp computed
  obtain ⟨decision, hd, found⟩ := Option.map_eq_some_iff.mp found
  simp only [Bool.and_eq_true, beq_iff_eq, List.isEmpty_iff, List.all_eq_true,
    Bool.not_eq_true'] at found
  obtain ⟨⟨⟨⟨⟨ran, clean⟩, plain⟩, places⟩, words⟩, selected⟩ := found
  have analyzed := toOption_eq_some.mp ha
  obtain ⟨first, rest, he, hfirst, hrest⟩ := List.map_eq_cons_iff.mp places
  obtain ⟨second, last, rfl, hsecond, hlast⟩ := List.map_eq_cons_iff.mp hrest
  obtain rfl := List.map_eq_nil_iff.mp hlast
  rw [Prod.mk.injEq] at hfirst hsecond
  refine ⟨analysis, decision, first, second, analyzed, ran, hd, plain, fun warning hw => ?_, he,
    hfirst.1, hsecond.1, hsecond.2, ?_, selected⟩
  · have := mem_diagnostics_of_mem_warningsAt analyzed ran hw
    rw [clean] at this
    cases this
  · rw [he] at words
    have hw : second.lookahead.words.toList = [["a"]] := (List.cons.inj (List.cons.inj words).2).1
    rw [← Std.ExtTreeSet.mem_toList, hw]
    exact List.mem_singleton_self _

/-- Without any warning, tokens that start with the word of the second alternative can
be taken by the first: the word is cut where the first alternative looks deeper. -/
theorem select_cut_word : ∃ analysis decision entry,
    (localDepth.analyze {} ()).result = .ok analysis ∧ analysis.lookaheadRan = true ∧
      analysis.decisions.choice? 7 = some decision ∧
      (∀ entry ∈ decision.entries, Guard.overridesIn entry.guard = false) ∧
      (∀ warning ∈ localDepth.warningsAt {} 7,
        warning.kind ≠ .ambiguity ∧ warning.kind ≠ .unreachableAlternative) ∧
      decision.entries[1]? = some entry ∧ ["a"] ∈ entry.lookahead.words ∧ ["a"] <+: ["a", "b"] ∧
      decision.select ["a", "b"] ≠ some 1 := by
  obtain ⟨analysis, decision, first, second, ha, ran, hd, plain, quiet, he, _, _, _, hw, hs⟩ :=
    exists_localDepth
  refine ⟨analysis, decision, second, ha, ran, hd, plain, quiet, by rw [he]; rfl, hw,
    List.prefix_append ["a"] ["b"], ?_⟩
  rw [hs]
  exact fun h => absurd (Option.some.inj h) (by omega)

/-- Tokens that start like the second alternative also at depth 2 are taken by it. -/
theorem select_localDepth : ∃ analysis decision,
    (localDepth.analyze {} ()).result = .ok analysis ∧
      analysis.decisions.choice? 7 = some decision ∧ decision.select ["a", "c"] = some 1 := by
  obtain ⟨analysis, decision, first, second, ha, _, hd, plain, quiet, he, hfirst, hsecond, hn, hw,
    _⟩ := exists_localDepth
  have longer : (localDepth.firstOf 10000 6 2).toOption.map (fun set => set.words.toList) =
      some [["a", "c"]] := by
    decide +kernel
  obtain ⟨set, hset, words⟩ := Option.map_eq_some_iff.mp longer
  have only : ∀ other ∈ decision.entries.take 1, other = first := by
    rw [he]
    exact fun other hm => List.mem_singleton.mp hm
  refine ⟨analysis, decision, ha, hd, select_without_warning ha hd plain quiet
    (by rw [he]; rfl : decision.entries[1]? = some second) hw (List.prefix_append ["a"] ["c"])
    (fun other hother _ => ⟨set, ?_, ["a", "c"], ?_, List.prefix_refl _⟩) fun other hother hlt => ?_⟩
  · rw [only other hother, hfirst, hn]
    exact toOption_eq_some.mp hset
  · rw [← Std.ExtTreeSet.mem_toList, words]
    exact List.mem_singleton_self _
  · rw [only other hother] at hlt
    omega

end Registry

end BoundedLookahead
