import BoundedLookahead.Recall
import BoundedLookahead.Proofs.EngineAnswers

/-!
# Answers without history

An engine that keeps first sets node by node keeps, at every moment, only sets that it
would find again. A walk that fails has kept the sets of the nodes it was done with, each
of them right; solving that fails has kept nothing. So what was asked before, and what of
it failed, makes no difference to an answer, and the answers are those of the engine that
keeps whole levels.
-/

namespace BoundedLookahead

/-- Children may be replaced before their sets are found. -/
theorem Expansion.recall_map {α β : Type} (first : β → Run Memo FirstSet) (f : α → β)
    (sets : SetTable) (k : Nat) (expansion : Expansion α) :
    (expansion.map f).recall first sets k =
      expansion.recall (fun child => first (f child)) sets k := by
  cases expansion with
  | sequence units => exact firstOfSequence_map first f k _ units
  | choice alternatives => exact firstOfChoice_map first f _ alternatives
  | repetition kind body guard => cases kind <;> rfl
  | _ => rfl

/-- The first set of an expansion is found when those of its children are. -/
theorem Expansion.recall_relates (S : Simulation (Run Memo)) {α : Type}
    {walk : α → Run Memo FirstSet} {first : α → Except AnalysisError FirstSet} (sets : SetTable)
    (k : Nat) {expansion : Expansion α}
    (h : ∀ child ∈ expansion.children, S.relates (walk child) (first child)) :
    S.relates (expansion.recall walk sets k) (expansion.first first sets k) := by
  cases expansion with
  | sequence units => exact S.firstOfSequence h k _
  | choice alternatives => exact S.firstOfChoice h _
  | repetition kind body guard =>
    have hb := h body (by simp [Expansion.children])
    cases kind with
    | oneOrMore => exact hb
    | _ => exact S.bind hb fun set _ => S.pure _
  | tryBlock body handlers cleanup => exact h body (by simp [Expansion.children])
  | _ => exact S.pure _

/-- Keeping a value that is as it should be leaves all that is kept as it should be. -/
theorem forall_get?_insert {α : Type} {kept : Std.ExtTreeMap Nat α} {P : Nat → α → Prop}
    (h : ∀ key value, kept.get? key = some value → P key value) {new : Nat} {value : α}
    (hn : P new value) :
    ∀ key found, (kept.insert new value).get? key = some found → P key found := by
  intro key found hf
  rw [Std.ExtTreeMap.get?_eq_getElem?, Std.ExtTreeMap.getElem?_insert] at hf
  split at hf
  · next he =>
    cases hf
    rwa [← Std.LawfulEqCmp.eq_of_compare he]
  · exact h key found hf

/-- What is kept is what would be found again. -/
def Memo.Holds (memo : Memo) (registry : Registry) (sets : SetTable) (k limit : Nat) : Prop :=
  ∀ id set, memo.get? id = some set → registry.firstAt sets k limit id = .ok set

namespace Registry

/-- The walks that keep only what would be found again. -/
def keeping (registry : Registry) (sets : SetTable) (k limit : Nat) : Simulation (Run Memo) :=
  .preserving fun memo => memo.Holds registry sets k limit

variable {registry : Registry} {nullable : List String} {sets : SetTable} {k limit : Nat}

/-- The set of a node may be kept. -/
theorem keeping_keep {id : NodeId} {set : FirstSet}
    (h : registry.firstAt sets k limit id = .ok set) :
    (registry.keeping sets k limit).relates (Memo.keep id set) (.ok ()) :=
  Simulation.preserving_get fun _ holds =>
    Simulation.preserving_set (forall_get?_insert holds h)

/-- A walk from a grounded node finds its first set, and keeps nothing that would not be
found again. -/
theorem Grounded.recall {id : NodeId} (h : registry.Grounded id) :
    (registry.keeping sets k limit).relates ((registry.tree id).recall sets k limit)
      (registry.firstAt sets k limit id) := by
  induction h with
  | @node id entry found below ih =>
    obtain ⟨expansion, location⟩ := entry
    have here := Grounded.node found below
    have he : registry.expansion? id = some expansion := by simp [expansion?, found]
    rw [here.tree_eq found, Tree.recall, Tree.fold_node, Expansion.map_map]
    refine Simulation.preserving_get fun memo holds => ?_
    cases kept : memo.get? id with
    | some set =>
      rw [holds id set kept]
      exact Simulation.pure _ set
    | none =>
      have step : registry.firstAt sets k limit id =
          (expansion.first (registry.firstAt sets k limit) sets k >>= fun found =>
            found.within id k limit) := here.firstAt_eq he
      have walk : (registry.keeping sets k limit).relates
          ((expansion.map fun child => Thunk.mk fun _ =>
            (registry.tree child).recall sets k limit).recall Thunk.get sets k)
          (expansion.first (registry.firstAt sets k limit) sets k) := by
        rw [Expansion.recall_map]
        exact Expansion.recall_relates _ sets k ih
      rw [step]
      -- the set is kept only after the check of its size, so a walk that fails here keeps
      -- the sets of the children and nothing for the node itself
      refine Simulation.bind _ walk fun found hf =>
        Simulation.bind_aside _ (Simulation.preserving_ofExcept _) fun set hw => keeping_keep ?_
      rw [step, hf]
      exact hw

/-- The walks of a round find what the round is made of. -/
theorem keeping_recallRules {rules : List Rule}
    (h : ∀ rule ∈ rules, (registry.keeping sets k limit).relates (rule.tree.recall sets k limit)
      (rule.tree.first sets k limit)) :
    (registry.keeping sets k limit).relates (recallRules sets k limit rules)
      (rules.mapM fun rule => do return (rule.name, ← rule.tree.first sets k limit)) := by
  induction rules with
  | nil => exact Simulation.pure _ []
  | cons rule rules ih =>
    rw [List.forall_mem_cons] at h
    rw [List.mapM_cons, bind_assoc]
    exact Simulation.bind _ h.1 fun set _ =>
      Simulation.bind _ (ih h.2) fun others _ => Simulation.pure _ _

section

variable (grounded : ∀ production ∈ registry.productions, registry.Grounded production.root)

include grounded

/-- A round is the same with and without keeping sets. -/
theorem recallRound_eq (sets : SetTable) :
    recallRound registry.rules k limit sets = firstRound registry.rules k limit sets := by
  have walks : ∀ rule ∈ registry.rules, (registry.keeping sets k limit).relates
      (rule.tree.recall sets k limit) (rule.tree.first sets k limit) := by
    intro rule hr
    obtain ⟨production, hp, rfl⟩ := List.mem_map.mp hr
    exact (grounded production hp).recall
  have nothing : Memo.Holds ∅ registry sets k limit := by
    intro id set h
    simp at h
  unfold recallRound firstRound
  rw [(keeping_recallRules walks ∅ nothing).1]

/-- The rounds are the same with and without keeping sets. -/
theorem iterateRecall_eq (fuel rounds : Nat) (sets : SetTable) :
    iterateRecall registry.rules k limit fuel sets =
      (iterateFirst registry.rules k limit fuel rounds sets).outcome := by
  induction fuel generalizing rounds sets with
  | zero => rfl
  | succ fuel ih =>
    unfold iterateRecall iterateFirst
    rw [recallRound_eq grounded]
    cases firstRound registry.rules k limit sets with
    | error cause => rfl
    | ok next =>
      rw [ok_bind]
      dsimp only
      split
      · rfl
      · exact ih (rounds + 1) next

/-- Solving is the same with and without keeping sets. -/
theorem recallSets_eq (limit k : Nat) :
    registry.recallSets limit k = (registry.solveFirst limit k).outcome :=
  iterateRecall_eq grounded _ 0 _

end

end Registry

/-- The question is about nodes of the arena with everything below them in it. -/
def Query.Inside (registry : Registry) : Query → Prop
  | .first id _ => registry.Grounded id
  | .units ids _ => ∀ id ∈ ids, registry.Grounded id
  | _ => True

namespace RecallEngine

/-- The engine works for this grammar and has kept only what it would find again. -/
structure Serves (engine : RecallEngine) (registry : Registry) (nullable : List String)
    (limit : Nat) : Prop where
  /-- It has the grammar. -/
  registry_eq : engine.registry = registry
  /-- It has the nullable productions. -/
  nullable_eq : engine.nullable = nullable
  /-- It has the limit. -/
  limit_eq : engine.limit = limit
  /-- The sets of the productions are those that solving comes to. -/
  solved : ∀ k sets, engine.solved.get? k = some sets →
    (registry.solveFirst limit k).outcome = .ok sets
  /-- The sets of the nodes are those that walks find after solving. -/
  recalled : ∀ k id set, (engine.memo k).get? id = some set →
    ((registry.solveFirst limit k).outcome >>= fun sets => registry.firstAt sets k limit id) =
      .ok set

/-- The runs that keep only what would be found again. -/
def recalling (registry : Registry) (nullable : List String) (limit : Nat) :
    Simulation (Run RecallEngine) :=
  .preserving fun engine => engine.Serves registry nullable limit

variable {registry : Registry} {nullable : List String} {limit k : Nat}

/-- What is kept for a depth is what was put there last. -/
theorem memo_insert (engine : RecallEngine) (k : Nat) (memo : Memo) (j : Nat) :
    ({ engine with memos := engine.memos.insert k memo } : RecallEngine).memo j =
      if k = j then memo else engine.memo j := by
  simp only [RecallEngine.memo, Std.ExtTreeMap.get?_eq_getElem?, Std.ExtTreeMap.getElem?_insert,
    Std.LawfulEqCmp.compare_eq_iff_eq]
  split <;> rfl

/-- A walk after solving leaves an engine that has kept only what it would find again. -/
theorem recalling_walk {α : Type} {sets : SetTable} {run : Run Memo α}
    {outcome : Except AnalysisError α} (solved : (registry.solveFirst limit k).outcome = .ok sets)
    (h : (registry.keeping sets k limit).relates run outcome) :
    (recalling registry nullable limit).relates (walk k run) outcome := by
  intro engine served
  have holds : (engine.memo k).Holds registry sets k limit := by
    intro id set hm
    have := served.recalled k id set hm
    rwa [solved, ok_bind] at this
  obtain ⟨hr, left⟩ := h (engine.memo k) holds
  refine ⟨hr, { served with recalled := fun j id set hm => ?_ }⟩
  unfold walk at hm
  dsimp only at hm
  rw [memo_insert] at hm
  split at hm
  · next he =>
    subst he
    rw [solved, ok_bind]
    exact left id set hm
  · exact served.recalled j id set hm

section

variable (grounded : ∀ production ∈ registry.productions, registry.Grounded production.root)

include grounded

/-- An engine finds the sets of the productions. -/
theorem recalling_sets (k : Nat) :
    (recalling registry nullable limit).relates (sets k) (registry.solveFirst limit k).outcome := by
  refine Simulation.preserving_get fun engine served => ?_
  cases kept : engine.solved.get? k with
  | some found =>
    rw [served.solved k found kept]
    exact Simulation.pure _ found
  | none =>
    rw [served.registry_eq, served.limit_eq, Registry.recallSets_eq grounded]
    refine Simulation.bind_aside _ (Simulation.preserving_ofExcept _) fun found solved => ?_
    exact Simulation.preserving_set ⟨rfl, served.nullable_eq, rfl,
      forall_get?_insert served.solved solved, served.recalled⟩

/-- An engine finds the first set of a grounded node. -/
theorem recalling_first {id : NodeId} (h : registry.Grounded id) (k : Nat) :
    (recalling registry nullable limit).relates (first id k) (registry.firstOf limit id k) := by
  rw [h.firstOf_eq]
  refine Simulation.preserving_get fun engine served => ?_
  cases kept : (engine.memo k).get? id with
  | some set =>
    rw [served.recalled k id set kept]
    exact Simulation.pure _ set
  | none =>
    rw [served.registry_eq, served.limit_eq]
    exact Simulation.bind _ (recalling_sets grounded k) fun sets solved =>
      recalling_walk solved h.recall

/-- An engine finds the first set of a production. -/
theorem recalling_production (name : String) (k : Nat) :
    (recalling registry nullable limit).relates (firstOfProduction name k)
      (registry.firstOfProduction limit name k) := by
  have found : registry.firstOfProduction limit name k =
      ((registry.solveFirst limit k).outcome >>= fun sets => .ok (sets.find name)) := by
    unfold Registry.firstOfProduction Registry.level
    cases (registry.solveFirst limit k).outcome <;> rfl
  rw [found]
  exact Simulation.bind _ (recalling_sets grounded k) fun sets _ => Simulation.pure _ _

/-- An engine answers every question about grounded nodes as the grammar determines. -/
theorem recalling_answer {query : Query} (inside : query.Inside registry) :
    (recalling registry nullable limit).relates (answer query)
      (registry.answer nullable limit query) := by
  cases query with
  | first id k =>
    exact Simulation.bind _ (recalling_first grounded inside k) fun set _ => Simulation.pure _ _
  | units ids k =>
    exact Simulation.bind _
      (Simulation.firstOfSequence _ (fun id hm => recalling_first grounded (inside id hm) k) k
        FirstSet.epsilon)
      fun set _ => Simulation.pure _ _
  | production name k =>
    exact Simulation.bind _ (recalling_production grounded name k) fun set _ =>
      Simulation.pure _ _
  | nullable id =>
    refine Simulation.preserving_get fun engine served => ?_
    rw [served.registry_eq, served.nullable_eq]
    exact Simulation.bind _ (Simulation.preserving_ofExcept _) fun truth _ => Simulation.pure _ _
  | nodeCount =>
    refine Simulation.preserving_get fun engine served => ?_
    rw [served.registry_eq]
    exact Simulation.pure _ _

/-- An engine answers a row of such questions as the grammar determines each of them. -/
theorem recalling_answers {queries : List Query}
    (inside : ∀ query ∈ queries, query.Inside registry) :
    (recalling registry nullable limit).relates (answers queries)
      (.ok (queries.map (registry.answer nullable limit))) := by
  induction queries with
  | nil => exact Simulation.pure _ _
  | cons query queries ih =>
    rw [List.forall_mem_cons] at inside
    exact Simulation.bind (y := .ok (registry.answer nullable limit query)) _
      (Simulation.preserving_attempt (recalling_answer grounded inside.1)) fun reply _ =>
        Simulation.bind _ (ih inside.2) fun replies _ => Simulation.pure _ _

end

/-- An engine that has kept nothing serves its grammar. -/
theorem serves_recalling (engine : Engine) :
    engine.recalling.Serves engine.registry engine.nullable engine.limit := by
  refine ⟨rfl, rfl, rfl, fun k sets h => ?_, fun k id set h => ?_⟩
  · simp [Engine.recalling] at h
  · simp [Engine.recalling, memo] at h

/-- Answers do not depend on history. An engine that was accepted is asked any questions,
one after the other, about nodes whose trees lie within the arena. Each of them, also one
that fails or comes after one that failed, gets the answer it gets from a new engine: the
same set, or the same cause of failure. It does not matter whether the engine keeps whole
levels or the sets of single nodes. -/
theorem answers_without_history {registry : Registry} {report : Report} {options : Options}
    {engine : Engine} (accepted : Engine.start registry report options = .ok engine)
    {queries : List Query} (inside : ∀ query ∈ queries, query.Inside registry) :
    (answers queries engine.recalling).result =
        .ok (queries.map fun query => (answer query engine.recalling).result) ∧
      (Engine.answers queries engine).result =
        .ok (queries.map fun query => (Engine.answer query engine).result) ∧
      ∀ query ∈ queries,
        (answer query engine.recalling).result = (Engine.answer query engine).result := by
  have grounded : ∀ production ∈ engine.registry.productions,
      engine.registry.Grounded production.root := by
    obtain ⟨_, _, ⟨final, owned⟩, rfl⟩ := Engine.start_eq_ok.mp accepted
    exact Registry.grounded_production owned
  replace inside : ∀ query ∈ queries, query.Inside engine.registry := by
    obtain ⟨_, _, _, rfl⟩ := Engine.start_eq_ok.mp accepted
    exact inside
  have recalled (query : Query) (hq : query ∈ queries) :=
    (recalling_answer grounded (inside query hq) _ (serves_recalling engine)).1
  have leveled (query : Query) := (Engine.serving_answer query engine ⟨rfl, rfl, rfl⟩).1
  refine ⟨?_, ?_, fun query hq => ?_⟩
  · rw [(recalling_answers grounded inside _ (serves_recalling engine)).1]
    exact congrArg Except.ok (List.map_congr_left fun query hq => (recalled query hq).symm)
  · rw [(Engine.answers_eq queries engine ⟨rfl, rfl, rfl⟩).1]
    exact congrArg Except.ok (List.map_congr_left fun query _ => (leveled query).symm)
  · rw [recalled query hq, leveled query]

/-- The grammar `S -> LOOKAHEAD((a | b) (a | b)) a`. -/
def wideGuard : Registry where
  nodes := #[⟨.terminal "a", {}⟩, ⟨.terminal "b", {}⟩, ⟨.choice [0, 1], {}⟩,
    ⟨.terminal "a", {}⟩, ⟨.terminal "b", {}⟩, ⟨.choice [3, 4], {}⟩, ⟨.sequence [2, 5], {}⟩,
    ⟨.lookahead { guard := some 6 }, {}⟩, ⟨.terminal "a", {}⟩, ⟨.sequence [7, 8], {}⟩]
  productions := [{ name := "S", root := 9 }]
  tokens := ["a", "b"]

/-- With sets of at most two words the guard fails at depth 2, and leaves behind the sets
of its units; asked again, alone or unit by unit, it is answered as by a new engine. -/
theorem answers_wideGuard :
    let engine : Engine := { registry := wideGuard, nullable := [], limit := 2 }
    let queries : List Query := [.first 6 2, .first 6 2, .units [2, 5] 2, .first 6 1]
    (answer (.first 6 2) engine.recalling).result = .error (.limitExceeded 6 2 4 2) ∧
    ((answer (.first 6 2) engine.recalling).state.memo 2).keys = [0, 1, 2, 3, 4, 5] ∧
    (answers queries engine.recalling).result =
      .ok (queries.map fun query => (answer query engine.recalling).result) := by
  intro engine queries
  have accepted :
      Engine.start wideGuard ⟨⟨[]⟩, [], [], []⟩ { expansionLimit := 2 } = .ok engine := by
    have owned : wideGuard.owners.toOption.isSome = true := by decide +kernel
    exact Engine.start_eq_ok.mpr ⟨rfl, rfl, exists_eq_ok_of_isSome owned, rfl⟩
  have grounded {id : NodeId} (h : id < 10) : wideGuard.Grounded id :=
    Registry.grounded_of_lt (by decide) h
  have inside : ∀ query ∈ queries, query.Inside wideGuard := by
    simp only [queries, List.forall_mem_cons, Query.Inside]
    exact ⟨grounded (by decide), grounded (by decide),
      ⟨grounded (by decide), grounded (by decide), nofun⟩, grounded (by decide), nofun⟩
  exact ⟨by decide +kernel, by decide +kernel, (answers_without_history accepted inside).1⟩

end RecallEngine

end BoundedLookahead
