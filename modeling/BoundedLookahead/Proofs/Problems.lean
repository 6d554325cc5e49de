import Mathlib.Data.List.Induction
import BoundedLookahead.Proofs.Slots

/-!
# Problems of nodes

Most of what validation reports about a tree are problems that a node has wherever it
stands: a token that is not declared, a call that does not fit, a predicate that is not
allowed, a repeated body that can match nothing. The walk over a tree finds each of them
once, at its node, and finds no others. So does the list of later definitions, of which
each is a definition whose name was taken before.
-/

namespace BoundedLookahead

/-- The kinds under which such problems are reported. -/
def DiagnosticKind.ofNodes : List DiagnosticKind :=
  [.undefinedToken, .undefinedProduction, .arityMismatch, .semanticLookaheadDisabled,
    .emptyRepetition, .emptyOptional]

/-- None of them is a kind of directives out of place, of definitions, or of calls taken
together. -/
theorem kind_ne_of_mem_ofNodes {kind : DiagnosticKind} (h : kind ∈ DiagnosticKind.ofNodes) :
    kind ≠ .misplacedLookahead ∧ kind ≠ .duplicateProduction ∧ kind ≠ .undefinedStart ∧
      kind ≠ .leftRecursion ∧ kind ≠ .unreachableProduction := by
  revert kind
  decide

namespace Registry

variable {registry : Registry} {options : Options} {names : List String} {id : NodeId}
  {slot : Slot} {problem : Problem} {kind : DiagnosticKind}

/-- The node has the problem, wherever it stands. -/
inductive HasProblem (registry : Registry) (options : Options) (id : NodeId) : Problem → Prop
  /-- It is a token that is not declared. -/
  | undeclared {kind : Token} (he : registry.expansion? id = some (.terminal kind))
    (unknown : kind ∉ registry.tokens) : HasProblem registry options id (.undeclared kind)
  /-- It calls a name that no production has. -/
  | undefined {name : String} {args : List String}
    (he : registry.expansion? id = some (.nonTerminal name args))
    (unknown : name ∉ registry.names) : HasProblem registry options id (.undefined name)
  /-- It calls a production with another number of arguments than that has parameters. -/
  | arity {args : List String} {callee : Production}
    (he : registry.expansion? id = some (.nonTerminal callee.name args))
    (defined : callee ∈ registry.productions) (differ : callee.params.length ≠ args.length) :
    HasProblem registry options id (.arity callee.name callee.params.length args.length)
  /-- It is a directive with a predicate, and predicates are not allowed. -/
  | predicate {directive : Directive NodeId}
    (he : registry.expansion? id = some (.lookahead directive))
    (given : directive.predicate ≠ none) (disallowed : options.allowPredicates = false) :
    HasProblem registry options id .predicateNotAllowed
  /-- It is a repetition, and its body derives the empty word. -/
  | emptyBody {kind : RepetitionKind} {body : NodeId} {guard : Option NodeId}
    (he : registry.expansion? id = some (.repetition kind body guard))
    (empty : registry.Derives .repeated body []) : HasProblem registry options id (.emptyBody kind)

/-- What is wrong with a call is that its name is not defined or that the arguments do not
fit. -/
theorem callProblem?_eq_some {args : List String} {name : String}
    (he : registry.expansion? id = some (.nonTerminal name args)) :
    registry.callProblem? name args.length = some problem ↔ registry.HasProblem options id problem := by
  unfold callProblem?
  constructor
  · intro h
    split at h
    · next unknown =>
      cases h
      refine .undefined he fun listed => ?_
      rw [← isDefined_iff, isDefined, unknown] at listed
      cases listed
    · next callee defined =>
      obtain rfl : callee.name = name := by simpa using List.find?_some defined
      split at h
      · cases h
      · next differ =>
        cases h
        exact .arity he (List.mem_of_find?_eq_some defined) differ
  · intro h
    cases h with
    | @undefined called _ he' unknown =>
      obtain ⟨rfl, rfl⟩ : name = called ∧ _ = _ := by simpa [he] using he'
      have none : registry.production? name = none := by
        rw [← Option.not_isSome_iff_eq_none]
        exact fun defined => unknown (isDefined_iff.mp defined)
      rw [none]
    | @arity _ callee he' defined differ =>
      obtain ⟨rfl, rfl⟩ : name = callee.name ∧ args = _ := by simpa [he] using he'
      rw [production?_eq_some defined]
      exact if_neg differ
    | undeclared he' | predicate he' | emptyBody he' => simp [he] at he'

/-- At a node validation finds the problems that the node has wherever it stands, besides a
directive out of place. -/
theorem Grounded.mem_problems_iff {expansion : Expansion NodeId}
    (grounded : ∀ production ∈ registry.productions, registry.Grounded production.root)
    (hn : registry.nullableNames = .ok names) (h : registry.Grounded id)
    (he : registry.expansion? id = some expansion) (other : problem ≠ .misplaced) :
    (problem ∈ registry.problemsBefore options slot expansion ∨
      problem ∈ registry.problemsAfter names expansion) ↔ registry.HasProblem options id problem := by
  cases expansion with
  | terminal kind =>
    simp only [problemsBefore, problemsAfter, List.not_mem_nil, or_false]
    constructor
    · intro hm
      split at hm
      · cases hm
      · next unknown =>
        rw [List.mem_singleton.mp hm]
        exact .undeclared he (by simpa [isDeclared] using unknown)
    · intro has
      cases has with
      | undeclared he' unknown =>
        rw [he] at he'
        cases he'
        simp [isDeclared, unknown]
      | undefined he' | arity he' | predicate he' | emptyBody he' => simp [he] at he'
  | nonTerminal name args =>
    simp only [problemsBefore, problemsAfter, List.not_mem_nil, or_false, Option.mem_toList]
    exact callProblem?_eq_some he
  | lookahead directive =>
    simp only [problemsBefore, problemsAfter, List.not_mem_nil, or_false, Options.directiveProblems]
    constructor
    · intro hm
      rcases List.mem_append.mp hm with hm | hm
      · split at hm
        · next given =>
          rw [List.mem_singleton.mp hm]
          rw [Bool.and_eq_true, Bool.not_eq_true', Option.isSome_iff_ne_none] at given
          exact .predicate he given.1 given.2
        · cases hm
      · split at hm
        · cases hm
        · exact absurd (List.mem_singleton.mp hm) other
    · intro has
      cases has with
      | predicate he' given disallowed =>
        rw [he] at he'
        cases he'
        simp [Option.isSome_iff_ne_none.mpr given, disallowed]
      | undeclared he' | undefined he' | arity he' | emptyBody he' => simp [he] at he'
  | repetition kind body guard =>
    have below : registry.Grounded body := h.of_expansion he body (by simp [Expansion.children])
    simp only [problemsBefore, problemsAfter, List.not_mem_nil, false_or]
    constructor
    · intro hm
      split at hm
      · next empty =>
        rw [List.mem_singleton.mp hm]
        exact .emptyBody he ((below.nullable_iff grounded hn).mp empty)
      · cases hm
    · intro has
      cases has with
      | emptyBody he' empty =>
        rw [he] at he'
        cases he'
        simp [(below.nullable_iff grounded hn).mpr empty]
      | undeclared he' | undefined he' | arity he' | predicate he' => simp [he] at he'
  | _ =>
    simp only [problemsBefore, problemsAfter, List.not_mem_nil, or_self, false_iff]
    intro has
    cases has with
    | undeclared he' | undefined he' | arity he' | predicate he' | emptyBody he' =>
      simp [he] at he'

/-- A walk finds the problems that the nodes of the tree have wherever they stand. -/
theorem Grounded.mem_findingsFrom
    (grounded : ∀ production ∈ registry.productions, registry.Grounded production.root)
    (hn : registry.nullableNames = .ok names) (other : kind ≠ .misplacedLookahead)
    (h : registry.Grounded id) {finding : Finding} :
    finding ∈ registry.findingsFrom options names kind (id, slot) ↔
      finding.problem.kind = kind ∧ registry.Reaches id finding.node ∧
        finding.location = registry.locationOf finding.node ∧
        registry.HasProblem options finding.node finding.problem := by
  have own {place : Slot} {expansion : Expansion NodeId} (kept : finding.problem.kind = kind)
      (reached : registry.Reaches id finding.node)
      (he : registry.expansion? finding.node = some expansion) :
      (finding.problem ∈ registry.problemsBefore options place expansion ∨
        finding.problem ∈ registry.problemsAfter names expansion) ↔
          registry.HasProblem options finding.node finding.problem := by
    refine (h.of_reaches reached).mem_problems_iff grounded hn he fun misplaced => other ?_
    rw [← kept, misplaced, Problem.kind]
  rw [h.mem_findingsFrom_iff_meets]
  constructor
  · rintro ⟨kept, located, place, expansion, met, he, hm⟩
    exact ⟨kept, met.reaches, located, (own kept met.reaches he).mp hm⟩
  · rintro ⟨kept, reached, located, has⟩
    obtain ⟨place, met⟩ := h.exists_meets reached slot
    obtain ⟨expansion, he, _⟩ := (h.of_reaches reached).exists_expansion
    exact ⟨kept, located, place, expansion, met, he, (own kept reached he).mpr has⟩

end Registry

/-- The definitions whose name an earlier one of the list has. -/
def laterDefinitions (definitions : List Production) : List Production :=
  (definitions.zipIdx.filter fun entry =>
    (definitions.take entry.2).any (·.name == entry.1.name)).map Prod.fst

/-- One more definition is a later one when one of the others has its name. -/
theorem laterDefinitions_concat (definitions : List Production) (production : Production) :
    laterDefinitions (definitions ++ [production]) = laterDefinitions definitions ++
      if definitions.any (·.name == production.name) then [production] else [] := by
  have earlier : ∀ entry ∈ definitions.zipIdx,
      ((definitions ++ [production]).take entry.2).any (·.name == entry.1.name) =
        (definitions.take entry.2).any (·.name == entry.1.name) := by
    rintro ⟨definition, position⟩ hm
    have inside : position < definitions.length := by
      have := List.mem_zipIdx hm
      omega
    rw [List.take_append_of_le_length (Nat.le_of_lt inside)]
  unfold laterDefinitions
  rw [List.zipIdx_append, List.filter_append, List.map_append, List.filter_congr earlier]
  congr 1
  simp [List.filter_cons]
  split <;> rfl

namespace Registry

variable {registry : Registry} {options : Options}

/-- After definitions were added to a grammar without any, the later ones of them are kept
aside. -/
theorem foldl_addProduction {base : Registry} (undefined : base.definitions = [])
    (definitions : List Production) :
    (∀ name, name ∈ (definitions.foldl addProduction base).names ↔
      name ∈ definitions.map (·.name)) ∧
      (definitions.foldl addProduction base).duplicates = laterDefinitions definitions := by
  obtain ⟨none, single⟩ := List.append_eq_nil_iff.mp undefined
  induction definitions using List.reverseRecOn with
  | nil => exact ⟨fun name => by simp [names, none], single⟩
  | append_singleton definitions production ih =>
    obtain ⟨listed, later⟩ := ih
    rw [List.foldl_append, List.foldl_cons, List.foldl_nil, laterDefinitions_concat, ← later]
    have taken : definitions.any (·.name == production.name) = true ↔
        production.name ∈ (definitions.foldl addProduction base).names := by
      rw [listed]
      simp
    by_cases h : production.name ∈ (definitions.foldl addProduction base).names
    · rw [if_pos (taken.mpr h), addProduction_duplicates_of_taken h, names,
        addProduction_productions_of_taken h]
      refine ⟨fun name => ?_, rfl⟩
      rw [← names, listed, List.map_append, List.mem_append, List.map_cons, List.map_nil,
        List.mem_singleton]
      refine ⟨.inl, fun hm => hm.elim id fun same => ?_⟩
      rw [same, ← listed]
      exact h
    · rw [if_neg (mt taken.mp h), addProduction_duplicates h, names, addProduction_productions h,
        List.append_nil]
      refine ⟨fun name => ?_, rfl⟩
      rw [List.map_append, List.mem_append, ← names, listed, List.map_append, List.mem_append]

/-- In an arena whose ownership is in order validation reports, production by production,
exactly the problems that the nodes of its tree have, each once and at its node. It reports
each later definition once, with the place of the first one. -/
theorem problems_exact {σ : Type} (options : Options) (state : σ) {final : Owners}
    (ho : registry.owners = .ok final) : ∃ report,
    (registry.validate options state).result = .ok report ∧
      (∀ kind ∈ DiagnosticKind.ofNodes, ∃ listed : Production → List Finding,
        report.diagnostics.ofKind kind = (registry.productions.flatMap fun production =>
          (listed production).map (·.diagnostic production.name)) ∧
        ∀ production ∈ registry.productions, ((listed production).map (·.node)).Nodup ∧
          ∀ finding, finding ∈ listed production ↔ finding.problem.kind = kind ∧
            registry.Reaches production.root finding.node ∧
            finding.location = registry.locationOf finding.node ∧
            registry.HasProblem options finding.node finding.problem) ∧
      List.Forall₂ (fun later diagnostic => ∃ first ∈ registry.productions, first.name = later.name ∧
          diagnostic = ⟨.duplicateProduction, later.name, later.location,
            s!"production '{later.name}' is already defined at {first.location.text}"⟩)
        registry.duplicates (report.diagnostics.ofKind .duplicateProduction) ∧
      ∀ base definitions, base.definitions = [] →
        definitions.foldl addProduction base = registry →
        registry.duplicates = laterDefinitions definitions := by
  have grounded := grounded_production ho
  obtain ⟨names, found, hn, hf, hv⟩ := exists_validated options grounded
  refine ⟨registry.reportOf options names found, (validate_result state).trans hv,
    fun kind hk => ?_, ?_, fun base definitions undefined built => ?_⟩
  · obtain ⟨placed, other⟩ := kind_ne_of_mem_ofNodes hk
    refine ⟨fun production => registry.findingsFrom options names kind (production.root, .plain), ?_,
      fun production hp => ⟨?_, fun finding => (grounded production hp).mem_findingsFrom grounded hn
        placed⟩⟩
    · rw [ofKind_reportOf hf other, rules, List.flatMap_map]
      rfl
    · exact nodup_findingsFrom ho hp
  · rw [ofKind_duplicateProduction, duplicateDiagnostics, List.forall₂_map_right_iff,
      List.forall₂_same]
    intro later hl
    obtain ⟨first, hp, same⟩ := List.mem_map.mp (registry.duplicates_defined later hl)
    refine ⟨first, hp, same, ?_⟩
    rw [← same, production?_eq_some hp]
    rfl
  · rw [← built]
    exact (foldl_addProduction undefined definitions).2

/-- The grammar `S -> LOOKAHEAD(T(1), p) ((a)?)* (LOOKAHEAD(x): )? try(Gone); T -> a`, with
`T -> y` after it. -/
def crowdedRule : Registry where
  nodes := #[⟨.nonTerminal "T" ["1"], ⟨1, 2⟩⟩, ⟨.lookahead ⟨none, some "p", some 0⟩, ⟨1, 1⟩⟩,
    ⟨.terminal "a", ⟨1, 5⟩⟩, ⟨.repetition .zeroOrOne 2 none, ⟨1, 4⟩⟩,
    ⟨.repetition .zeroOrMore 3 none, ⟨1, 3⟩⟩, ⟨.terminal "x", ⟨1, 7⟩⟩, ⟨.action "", ⟨1, 8⟩⟩,
    ⟨.repetition .zeroOrOne 6 (some 5), ⟨1, 6⟩⟩, ⟨.nonTerminal "Gone" [], ⟨1, 10⟩⟩,
    ⟨.tryBlock 8 [] none, ⟨1, 9⟩⟩, ⟨.sequence [1, 4, 7, 9], ⟨1, 1⟩⟩, ⟨.terminal "a", ⟨2, 1⟩⟩,
    ⟨.terminal "y", ⟨3, 1⟩⟩]
  productions := [{ name := "S", root := 10 }, { name := "T", root := 11, location := ⟨2, 0⟩ }]
  duplicates := [{ name := "T", root := 12, location := ⟨3, 0⟩ }]
  tokens := ["a"]

/-- There is one problem of each kind, also inside the guards and the guarded block, and
none in the later definition of `T`. -/
theorem problems_crowdedRule : ∃ report,
    (crowdedRule.validate { allowPredicates := false } ()).result = .ok report ∧
      DiagnosticKind.ofNodes.map (fun kind => (report.diagnostics.ofKind kind).map (·.location)) =
        [[⟨1, 7⟩], [⟨1, 10⟩], [⟨1, 2⟩], [⟨1, 1⟩], [⟨1, 3⟩], [⟨1, 6⟩]] ∧
      ⟨.arityMismatch, "S", ⟨1, 2⟩, "production 'T' expects 0 argument(s), but got 1"⟩ ∈
        report.diagnostics.ofKind .arityMismatch ∧
      report.diagnostics.ofKind .duplicateProduction =
        [⟨.duplicateProduction, "T", ⟨3, 0⟩, "production 'T' is already defined at 2:0"⟩] := by
  have owned : crowdedRule.owners.toOption.isSome = true := by decide +kernel
  have computed : (crowdedRule.validate { allowPredicates := false } ()).result.toOption.map
      (fun report => (DiagnosticKind.ofNodes.map
          fun kind => (report.diagnostics.ofKind kind).map (·.location),
        report.diagnostics.ofKind .duplicateProduction)) =
      some ([[⟨1, 7⟩], [⟨1, 10⟩], [⟨1, 2⟩], [⟨1, 1⟩], [⟨1, 3⟩], [⟨1, 6⟩]],
        [⟨.duplicateProduction, "T", ⟨3, 0⟩, "production 'T' is already defined at 2:0"⟩]) := by
    decide +kernel
  obtain ⟨final, forest⟩ := exists_eq_ok_of_isSome owned
  obtain ⟨report, hr, exact, _⟩ := problems_exact { allowPredicates := false } () forest
  rw [hr] at computed
  obtain ⟨places, later⟩ := Prod.mk.inj (Option.some.inj computed)
  refine ⟨report, hr, places, ?_, later⟩
  obtain ⟨listed, column, each⟩ := exact .arityMismatch (by decide)
  have first : { name := "S", root := 10 } ∈ crowdedRule.productions := List.mem_cons_self
  have directive : 1 ∈ crowdedRule.childIds 10 := by decide
  have guard : 0 ∈ crowdedRule.childIds 1 := by decide
  have reached : crowdedRule.Reaches 10 0 := .head directive (.single guard)
  have called : crowdedRule.expansion? 0 = some (.nonTerminal "T" ["1"]) := rfl
  have callee : { name := "T", root := 11, location := ⟨2, 0⟩ } ∈ crowdedRule.productions :=
    List.mem_cons_of_mem _ List.mem_cons_self
  have has : crowdedRule.HasProblem { allowPredicates := false } 0 (.arity "T" 0 1) :=
    .arity called callee (by decide)
  have found := ((each _ first).2 ⟨0, ⟨1, 2⟩, .arity "T" 0 1⟩).mpr ⟨rfl, reached, rfl, has⟩
  rw [column]
  exact List.mem_flatMap.mpr ⟨_, first, List.mem_map.mpr ⟨_, found, by decide⟩⟩

end Registry

end BoundedLookahead
