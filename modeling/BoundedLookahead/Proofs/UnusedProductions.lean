import BoundedLookahead.Proofs.CallGraphs
import BoundedLookahead.Proofs.Stages

/-!
# Productions that nothing uses

Validation warns of the productions to which no references lead from the start. Any call in
the tree of a production is a reference, wherever it stands. The search follows calls of
defined productions only; the others lead no further, so it loses nothing by that.
-/

namespace BoundedLookahead

namespace Registry

variable {registry : Registry} {options : Options} {caller callee start name : String}

/-- The tree of the production of the first name has a call of the second. -/
def References (registry : Registry) (caller callee : String) : Prop :=
  ∃ production ∈ registry.productions, production.name = caller ∧ ∃ node args,
    registry.Reaches production.root node ∧
      registry.expansion? node = some (.nonTerminal callee args)

/-- The name is that of the start production. -/
inductive StartsAt (registry : Registry) (options : Options) (start : String) : Prop
  /-- The options name it, and it is defined. -/
  | named (given : options.start = some start) (defined : start ∈ registry.names)
  /-- The options name none, and it is the first one. -/
  | first (free : options.start = none) {others : List String}
    (listed : registry.names = start :: others)

/-- Validation takes the start production for the start. -/
theorem start?_eq_some : registry.start? options = some start ↔ registry.StartsAt options start := by
  unfold start?
  constructor
  · intro h
    split at h
    · next given =>
      split at h
      · next defined =>
        cases h
        exact .named given (isDefined_iff.mp defined)
      · cases h
    · next free =>
      obtain ⟨others, listed⟩ := List.head?_eq_some_iff.mp h
      exact .first free listed
  · intro h
    cases h with
    | named given defined => simp only [given, isDefined_iff.mpr defined, if_true]
    | first free listed => simp only [free, listed, List.head?_cons]

section

variable (grounded : ∀ production ∈ registry.productions, registry.Grounded production.root)

include grounded

/-- Validation follows the references to names that are defined. -/
theorem calls_callGraph_iff : CallGraph.Calls registry.callGraph caller callee ↔
    callee ∈ registry.names ∧ registry.References caller callee := by
  rw [callGraph_eq, calls_graphOf, isDefined_iff]
  refine and_congr_right fun _ => ⟨?_, ?_⟩
  · rintro ⟨production, found, called⟩
    have hp : production ∈ registry.productions := List.mem_of_find?_eq_some found
    exact ⟨production, hp, by simpa using List.find?_some found,
      (grounded production hp).mem_calls.mp called⟩
  · rintro ⟨production, hp, rfl, called⟩
    exact ⟨production, production?_eq_some hp, (grounded production hp).mem_calls.mpr called⟩

/-- A production is reached when references lead to it. -/
theorem mem_reachable_iff_references (defined : name ∈ registry.names) :
    name ∈ registry.reachable start ↔ Relation.ReflTransGen registry.References start name := by
  rw [mem_reachable_iff]
  constructor
  · intro way
    exact way.lift id fun _ _ step => ((calls_callGraph_iff grounded).mp step).2
  · intro way
    induction way with
    | refl => exact .refl
    | tail _ step ih =>
      have caller := step
      obtain ⟨production, hp, rfl, _⟩ := caller
      exact (ih (List.mem_map_of_mem hp)).tail ((calls_callGraph_iff grounded).mpr ⟨defined, step⟩)

end

/-- In an arena whose ownership is in order validation warns, in their order, of exactly those
productions that no references lead to from the start production. Where the named start is not
defined it reports that once and warns of none. -/
theorem unused_exact {σ : Type} (options : Options) (state : σ) {final : Owners}
    (ho : registry.owners = .ok final) : ∃ report,
    (registry.validate options state).result = .ok report ∧
      (∀ start, registry.StartsAt options start →
        report.diagnostics.ofKind .undefinedStart = [] ∧
        ∃ unused : List Production, unused.Sublist registry.productions ∧
          (∀ production, production ∈ unused ↔ production ∈ registry.productions ∧
            ¬Relation.ReflTransGen registry.References start production.name) ∧
          report.diagnostics.ofKind .unreachableProduction = unused.map fun production =>
            ⟨.unreachableProduction, production.name, production.location,
              s!"production '{production.name}' is never used (unreachable from '{start}')"⟩) ∧
      ∀ name, options.start = some name → name ∉ registry.names →
        report.diagnostics.ofKind .undefinedStart =
          [⟨.undefinedStart, name, {}, s!"start production '{name}' is not defined"⟩] ∧
        report.diagnostics.ofKind .unreachableProduction = [] := by
  have grounded := grounded_production ho
  obtain ⟨names, found, _, _, hv⟩ := exists_validated options grounded
  refine ⟨registry.reportOf options names found, (validate_result state).trans hv, fun start begins => ?_,
    fun name given undefined => ?_⟩
  · have started := start?_eq_some.mpr begins
    rw [ofKind_undefinedStart, ofKind_unreachableProduction, unreachableDiagnostics, started]
    refine ⟨?_, registry.unreachable start, List.filter_sublist, fun production => ?_, rfl⟩
    · unfold startDiagnostics
      cases begins with
      | named given defined => simp only [given, isDefined_iff.mpr defined, if_true]
      | first free => simp only [free]
    · unfold unreachable
      rw [List.mem_filter]
      refine and_congr_right fun hp => ?_
      rw [← mem_reachable_iff_references grounded (List.mem_map_of_mem hp)]
      simp
  · have unknown : registry.isDefined name = false := by
      rw [Bool.eq_false_iff, Ne, isDefined_iff]
      exact undefined
    rw [ofKind_undefinedStart, ofKind_unreachableProduction, unreachableDiagnostics]
    simp [startDiagnostics, start?, given, unknown]

/-- The grammar `S -> LOOKAHEAD(B) A; C -> D; A -> a S; B -> Gone; D -> C`, with `A -> C` after
it. -/
def closedPair : Registry where
  nodes := #[⟨.nonTerminal "B" [], {}⟩, ⟨.lookahead ⟨none, none, some 0⟩, {}⟩,
    ⟨.nonTerminal "A" [], {}⟩, ⟨.sequence [1, 2], {}⟩, ⟨.nonTerminal "D" [], {}⟩,
    ⟨.terminal "a", {}⟩, ⟨.nonTerminal "S" [], {}⟩, ⟨.sequence [5, 6], {}⟩,
    ⟨.nonTerminal "Gone" [], {}⟩, ⟨.nonTerminal "C" [], {}⟩, ⟨.nonTerminal "C" [], {}⟩]
  productions := [{ name := "S", root := 3 }, { name := "C", root := 4, location := ⟨2, 1⟩ },
    { name := "A", root := 7 }, { name := "B", root := 8 }, { name := "D", root := 9, location := ⟨5, 1⟩ }]
  duplicates := [{ name := "A", root := 10 }]
  tokens := ["a"]

/-- `C` and `D` call each other, and the later definition of `A` calls `C`; all the same no
references lead to them. -/
theorem unused_closedPair : ∃ report,
    (closedPair.validate {} ()).result = .ok report ∧
      report.diagnostics.ofKind .unreachableProduction =
        [⟨.unreachableProduction, "C", ⟨2, 1⟩, "production 'C' is never used (unreachable from 'S')"⟩,
          ⟨.unreachableProduction, "D", ⟨5, 1⟩, "production 'D' is never used (unreachable from 'S')"⟩] ∧
      closedPair.References "C" "D" ∧ closedPair.References "D" "C" ∧
      ¬Relation.ReflTransGen closedPair.References "S" "C" ∧
      ∃ other, (closedPair.validate { start := some "Gone" } ()).result = .ok other ∧
        other.diagnostics.ofKind .unreachableProduction = [] := by
  have owned : closedPair.owners.toOption.isSome = true := by decide +kernel
  have computed : (closedPair.validate {} ()).result.toOption.map (fun report =>
      report.diagnostics.ofKind .unreachableProduction) =
      some [⟨.unreachableProduction, "C", ⟨2, 1⟩, "production 'C' is never used (unreachable from 'S')"⟩,
        ⟨.unreachableProduction, "D", ⟨5, 1⟩, "production 'D' is never used (unreachable from 'S')"⟩] := by
    decide +kernel
  obtain ⟨final, forest⟩ := exists_eq_ok_of_isSome owned
  obtain ⟨report, hr, warned, _⟩ := unused_exact {} () forest
  obtain ⟨_, unused, _, each, column⟩ := warned "S" (.first rfl rfl)
  rw [hr] at computed
  have listed : report.diagnostics.ofKind .unreachableProduction = _ := Option.some.inj computed
  have first : ({ name := "C", root := 4, location := ⟨2, 1⟩ } : Production) ∈ closedPair.productions :=
    List.mem_cons_of_mem _ List.mem_cons_self
  have last : ({ name := "D", root := 9, location := ⟨5, 1⟩ } : Production) ∈ closedPair.productions :=
    List.getLast_mem (List.cons_ne_nil _ _)
  obtain ⟨other, ho', _, missing⟩ := unused_exact { start := some "Gone" } () forest
  refine ⟨report, hr, listed, ⟨_, first, rfl, 4, [], .refl, rfl⟩, ⟨_, last, rfl, 9, [], .refl, rfl⟩, ?_,
    other, ho', (missing "Gone" rfl (by decide)).2⟩
  rw [column] at listed
  obtain ⟨production, hm, same⟩ := List.mem_map.mp (listed ▸ List.mem_cons_self)
  have name : production.name = "C" := congrArg Diagnostic.production same
  rw [← name]
  exact ((each production).mp hm).2

end Registry

end BoundedLookahead
