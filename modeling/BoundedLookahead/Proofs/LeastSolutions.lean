import Mathlib.Tactic.IntervalCases
import BoundedLookahead.Proofs.EngineAnswers

/-!
# Least solutions

The first sets of a grammar solve equations, one for each node and one for each production.
The equations know neither a limit nor a walk that stops early. Solving goes up to the least
family of sets that satisfies them, or ends at the limit: every round gives what the
equations make of the sets of the round before, and they give more for more. So the rounds
stay below every family that the equations give back.
-/

namespace BoundedLookahead

namespace Registry

variable {registry : Registry} {id : NodeId} {sets next : SetTable} {k limit : Nat}

/-- The family of sets of the productions and of their nodes satisfies the equations. A name
that no production has matches nothing. -/
structure Solves (registry : Registry) (k : Nat) (sets : String → FirstSet)
    (nodes : NodeId → FirstSet) : Prop where
  /-- The set of a node follows from those of its children and of what it calls. -/
  node : ∀ id expansion, registry.InProduction id → registry.expansion? id = some expansion →
    nodes id = expansion.plainFirst nodes sets k
  /-- The set of a production is that of its root. -/
  root : ∀ production ∈ registry.productions, sets production.name = nodes production.root
  /-- There is nothing else. -/
  unknown : ∀ name, name ∉ registry.names → sets name = FirstSet.empty

/-- The tables of first sets that solving comes to, by the number of rounds. -/
inductive AfterRounds (registry : Registry) (k limit : Nat) : Nat → SetTable → Prop
  /-- It starts with nothing. -/
  | start : AfterRounds registry k limit 0 registry.initialSets
  /-- A round makes the next table. -/
  | round {rounds : Nat} {sets next : SetTable} (before : AfterRounds registry k limit rounds sets)
    (h : firstRound registry.rules k limit sets = .ok next) :
    AfterRounds registry k limit (rounds + 1) next

section

variable {others : String → FirstSet} {nodes : NodeId → FirstSet}

/-- The sets of the productions determine those of the nodes. -/
theorem Solves.nodes_eq (solves : registry.Solves k others nodes) (h : registry.Grounded id)
    (inside : registry.InProduction id) : nodes id = registry.plainFirst others k id := by
  induction h with
  | @node id entry found below ih =>
    have he : registry.expansion? id = some entry.expansion := by simp [expansion?, found]
    rw [solves.node id _ inside he, (Grounded.node found below).plainFirst_eq he]
    exact Expansion.plainFirst_congr fun child hc => ih child hc (inside.of_child he hc)

variable (grounded : ∀ production ∈ registry.productions, registry.Grounded production.root)

include grounded

/-- Every round stays below every solution. -/
theorem Solves.round (solves : registry.Solves k others nodes) (hr : registry.Round k limit sets next)
    (tables : ∀ name, sets.find name ≤ others name) (name : String) : next.find name ≤ others name := by
  by_cases hn : name ∈ registry.names
  · obtain ⟨production, hp, rfl⟩ := List.mem_map.mp hn
    rw [solves.root production hp, solves.nodes_eq (grounded production hp) (.root hp),
      ← (grounded production hp).plainFirst_of_firstAt (hr.solved production hp)]
    exact (grounded production hp).plainFirst_mono tables
  · rw [hr.find_of_not_mem hn]
    exact FirstSet.empty_le _

/-- Sets that a round gives back are a solution. -/
theorem Round.solves (hr : registry.Round k limit sets sets) :
    registry.Solves k sets.find (registry.plainFirst sets.find k) where
  node _ _ inside he := (inside.grounded_of grounded).plainFirst_eq he
  root production hp :=
    ((grounded production hp).plainFirst_of_firstAt (hr.solved production hp)).symm
  unknown _ hn := hr.find_of_not_mem hn

/-- The tables that solving comes to grow from round to round. -/
theorem AfterRounds.growing {rounds : Nat} (h : registry.AfterRounds k limit rounds sets) :
    registry.Growing k limit sets := by
  induction h with
  | start => exact growing_initialSets
  | round before h ih => exact ih.round grounded (round_of_ok h)

/-- Where solving succeeds it ends in the least solution. -/
theorem least_of_solveFirst (hs : (registry.solveFirst limit k).outcome = .ok sets) :
    registry.Growing k limit sets ∧ registry.Round k limit sets sets ∧
      ∀ others nodes, registry.Solves k others nodes → ∀ name, sets.find name ≤ others name := by
  have run : Rounds registry.rules k limit 0 registry.initialSets (registry.solveFirst limit k) :=
    solveFirst_rounds grounded
  obtain ⟨growing, stable⟩ := Rounds.invariant run growing_initialSets
    (fun _ _ round growing => growing.round grounded round) hs
  refine ⟨growing, stable, fun others nodes solves => ?_⟩
  refine (Rounds.invariant run (fun name => ?_) (fun _ _ round => solves.round grounded round) hs).1
  rw [find_initialSets]
  exact FirstSet.empty_le _

/-- The first set of the root of a production is that of the production. -/
theorem firstOf_root {production : Production} (hp : production ∈ registry.productions) :
    registry.firstOf limit production.root k =
      (registry.solveFirst limit k).outcome.map fun sets => sets.find production.name := by
  rw [(grounded production hp).firstOf_eq]
  cases hs : (registry.solveFirst limit k).outcome with
  | error cause => rfl
  | ok sets => exact (least_of_solveFirst grounded hs).2.1.solved production hp

/-- The first set of a call is that of the production of the name. -/
theorem firstOf_call {name : String} {args : List String}
    (he : registry.expansion? id = some (.nonTerminal name args)) :
    registry.firstOf limit id k =
      (registry.solveFirst limit k).outcome.map fun sets => sets.find name := by
  obtain ⟨location, found⟩ := exists_node he
  have leaf : registry.Grounded id := .node found (by simp [Expansion.children])
  rw [leaf.firstOf_eq]
  cases hs : (registry.solveFirst limit k).outcome with
  | error cause => rfl
  | ok sets => exact (leaf.firstAt_eq_ok he).mpr ⟨rfl, (least_of_solveFirst grounded hs).1.within name⟩

end

/-- The first set of a production is found by solving. -/
theorem firstOfProduction_eq (registry : Registry) (limit : Nat) (name : String) (k : Nat) :
    registry.firstOfProduction limit name k =
      (registry.solveFirst limit k).outcome.map fun sets => sets.find name := by
  unfold firstOfProduction level
  cases (registry.solveFirst limit k).outcome <;> rfl

/-- In an arena whose ownership is in order, left-recursive or not, solving comes to an end
after finitely many rounds, and no round takes anything from the sets. It ends with a set
beyond the limit or with the least sets that satisfy the equations. From then on a production,
its root and its calls all have that set. -/
theorem solveFirst_least {final : Owners} (forest : registry.owners = .ok final) (limit k : Nat) :
    Rounds registry.rules k limit 0 registry.initialSets (registry.solveFirst limit k) ∧
    (∀ rounds sets next, registry.AfterRounds k limit rounds sets →
      firstRound registry.rules k limit sets = .ok next →
      ∀ name, sets.find name ≤ next.find name) ∧
    ((∃ node size, (registry.solveFirst limit k).outcome = .error (.limitExceeded node k size limit) ∧
        limit < size) ∨
      ∃ sets nodes, (registry.solveFirst limit k).outcome = .ok sets ∧
        registry.Solves k sets.find nodes ∧
        ∀ others otherNodes, registry.Solves k others otherNodes →
          ∀ name, sets.find name ≤ others name) ∧
    ∀ engine : Engine, engine.registry = registry → engine.limit = limit →
      ∀ production ∈ registry.productions,
        (Engine.firstOfProduction production.name k engine).result =
          ((registry.solveFirst limit k).outcome.map fun sets => sets.find production.name) ∧
        (Engine.first production.root k engine).result =
          (Engine.firstOfProduction production.name k engine).result ∧
        ∀ id args, registry.expansion? id = some (.nonTerminal production.name args) →
          (Engine.first id k engine).result =
            (Engine.firstOfProduction production.name k engine).result := by
  have grounded := grounded_production forest
  refine ⟨solveFirst_rounds grounded, fun rounds sets next reached h => ?_, ?_,
    fun engine same bounded production hp => ?_⟩
  · exact (reached.growing grounded).grow next (round_of_ok h)
  · cases hs : (registry.solveFirst limit k).outcome with
    | error cause =>
      obtain ⟨node, size, rfl, beyond⟩ :=
        Rounds.outcome_error (solveFirst_rounds grounded) grounded hs
      exact .inl ⟨node, size, rfl, beyond⟩
    | ok sets =>
      obtain ⟨_, stable, least⟩ := least_of_solveFirst grounded hs
      exact .inr ⟨sets, _, rfl, stable.solves grounded, least⟩
  · have serves : engine.Serves registry engine.nullable limit := ⟨same, rfl, bounded⟩
    rw [(Engine.serving_production production.name k engine serves).1, firstOfProduction_eq,
      (Engine.serving_first production.root k engine serves).1, firstOf_root grounded hp]
    refine ⟨rfl, rfl, fun id args he => ?_⟩
    rw [(Engine.serving_first id k engine serves).1, firstOf_call grounded he]

/-- The grammar `A -> B | a; B -> A`. -/
def idleCalls : Registry where
  nodes := #[⟨.nonTerminal "B" [], {}⟩, ⟨.terminal "a", {}⟩, ⟨.choice [0, 1], {}⟩,
    ⟨.nonTerminal "A" [], {}⟩]
  productions := [{ name := "A", root := 2 }, { name := "B", root := 3 }]
  tokens := ["a"]

/-- The equations of the grammar leave it open whether its productions begin with another
token. -/
theorem solves_idleCalls : idleCalls.Solves 1
    (fun name => if name ∈ idleCalls.names then FirstSet.ofWords [["a"], ["b"]] false else FirstSet.empty)
    (fun id => if id = 1 then FirstSet.token "a" else FirstSet.ofWords [["a"], ["b"]] false) where
  node id expansion _ he := by
    obtain ⟨location, found⟩ := exists_node he
    have bound : id < 4 := (Array.getElem?_eq_some_iff.mp found).1
    clear found
    interval_cases id <;> (cases he; decide +kernel)
  root production hp := by
    have roots : ∀ production ∈ idleCalls.productions, production.name ∈ idleCalls.names ∧
        production.root ≠ 1 := by decide
    obtain ⟨listed, other⟩ := roots production hp
    rw [if_pos listed, if_neg other]
  unknown _ hn := if_neg hn

/-- The productions call each other first, and solving ends: both begin with `a` and nothing
else, although more would satisfy the equations too. -/
theorem solveFirst_idleCalls : ∃ sets,
    (idleCalls.solveFirst 1 1).outcome = .ok sets ∧
      (sets.find "A").words.toList = [["a"]] ∧ (sets.find "B").words.toList = [["a"]] ∧
      sets.find "B" ≤ FirstSet.ofWords [["a"], ["b"]] false := by
  have owned : idleCalls.owners.toOption.isSome = true := by decide +kernel
  obtain ⟨final, forest⟩ := exists_eq_ok_of_isSome owned
  have computed : (idleCalls.solveFirst 1 1).outcome.toOption.map (fun sets =>
      ((sets.find "A").words.toList, (sets.find "B").words.toList)) = some ([["a"]], [["a"]]) := by
    decide +kernel
  obtain ⟨sets, hs, words⟩ := Option.map_eq_some_iff.mp computed
  obtain ⟨first, second⟩ := Prod.mk.inj words
  have solved := toOption_eq_some.mp hs
  obtain ⟨_, _, ⟨_, _, failed, _⟩ | ⟨found, _, hf, _, least⟩, _⟩ :=
    solveFirst_least forest 1 1
  · rw [solved] at failed
    cases failed
  · rw [solved] at hf
    cases hf
    exact ⟨sets, solved, first, second, least _ _ solves_idleCalls "B"⟩

end Registry

end BoundedLookahead
