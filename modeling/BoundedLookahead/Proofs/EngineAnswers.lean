import BoundedLookahead.Proofs.Beginnings
import BoundedLookahead.Proofs.Simulation

/-!
# Answers of an engine

What an engine keeps is always what it would find again. So its answers are those
of the grammar alone, whatever was asked before, and a first set it gives is
exact.
-/

namespace BoundedLookahead

/-- The first set of nodes in a row that is determined by the grammar. -/
def Registry.firstOfRow (registry : Registry) (limit : Nat) (ids : List NodeId) (k : Nat) :
    Except AnalysisError FirstSet :=
  firstOfSequence (fun id => registry.firstOf limit id k) k FirstSet.epsilon ids

/-- The answer to a question about a grammar that is determined by the grammar. -/
def Registry.answer (registry : Registry) (nullable : List String) (limit : Nat) :
    Query → Except AnalysisError Answer
  | .first id k => do return .set (← registry.firstOf limit id k)
  | .units ids k => do
    return .set (← firstOfSequence (fun id => registry.firstOf limit id k) k FirstSet.epsilon ids)
  | .production name k => do return .set (← registry.firstOfProduction limit name k)
  | .nullable id => do return .truth (← (registry.nullableNodes nullable).isNullable id)
  | .nodeCount => .ok (.count registry.nodes.size)

namespace Engine

/-- The engine works for this grammar, whatever it has kept. -/
structure Serves (engine : Engine) (registry : Registry) (nullable : List String) (limit : Nat) :
    Prop where
  /-- It has the grammar. -/
  registry_eq : engine.registry = registry
  /-- It has the nullable productions. -/
  nullable_eq : engine.nullable = nullable
  /-- It has the limit. -/
  limit_eq : engine.limit = limit

/-- A run on any engine for the grammar that has the outcome and leaves an engine for
the grammar. -/
def serving (registry : Registry) (nullable : List String) (limit : Nat) :
    Simulation (Run Engine) :=
  .preserving fun engine => engine.Serves registry nullable limit

variable {registry : Registry} {nullable : List String} {limit : Nat}

/-- A level that is kept is the level of its depth. -/
theorem level?_eq_some {engine : Engine} {k : Nat} {level : Level}
    (h : engine.level? k = some level) : engine.registry.level engine.limit k = .ok level := by
  obtain ⟨entry, he, rfl⟩ := Option.map_eq_some_iff.mp h
  have hk : entry.1 = k := by simpa using List.find?_some he
  have := engine.levels_eq entry (List.mem_of_find?_eq_some he)
  rwa [hk] at this

/-- A level that is kept is found, and nothing changes. -/
theorem level_of_kept {engine : Engine} {k : Nat} {found : Level} (h : engine.level? k = some found) :
    (level k engine).result = .ok found ∧ (level k engine).state = engine := by
  unfold level
  rw [Run.bind_result, Run.bind_state, Run.get_result, ok_bind]
  dsimp only
  rw [h]
  exact ⟨rfl, rfl⟩

/-- A level just kept is found. -/
theorem level?_keep (engine : Engine) {k : Nat} {found : Level}
    (h : engine.registry.level engine.limit k = .ok found) :
    (engine.keep k found h).level? k = some found := by
  simp [level?, keep]

/-- A run that goes on from an outcome, knowing that it is the outcome, has a property
when both ways of going on have it. -/
theorem match_outcome {P : Run Engine Level → Prop} (outcome : Unit → Except AnalysisError SetTable)
    {stop : AnalysisError → Run Engine Level}
    {next : ∀ sets, outcome () = .ok sets → Run Engine Level}
    (error : ∀ cause, outcome () = .error cause → P (stop cause)) (ok : ∀ sets h, P (next sets h)) :
    P (match h : outcome () with
      | .error cause => stop cause
      | .ok sets => next sets h) := by
  split
  · exact error _ (by assumption)
  · exact ok _ _

/-- A depth for which nothing is kept is solved, and its level is kept when there is
one. -/
theorem level_of_not_kept {engine : Engine} {k : Nat} (h : engine.level? k = none) :
    (level k engine).result = engine.registry.level engine.limit k ∧
      ((∃ cause, (level k engine).result = .error cause ∧ (level k engine).state = engine) ∨
        ∃ found hf, (level k engine).result = .ok found ∧
          (level k engine).state = engine.keep k found hf) := by
  unfold level
  rw [Run.bind_result, Run.bind_state, Run.get_result, ok_bind]
  dsimp only
  rw [h]
  dsimp only
  rw [Run.bind_result, Run.bind_state, Run.noteAll_result, ok_bind]
  refine match_outcome (P := fun run : Run Engine Level =>
    (run engine).result = engine.registry.level engine.limit k ∧
      ((∃ cause, (run engine).result = .error cause ∧ (run engine).state = engine) ∨
        ∃ found hf, (run engine).result = .ok found ∧
          (run engine).state = engine.keep k found hf))
    (fun _ => (engine.registry.solveFirst engine.limit k).outcome)
    ?_ ?_
  · refine fun cause failed => ⟨?_, .inl ⟨cause, rfl, rfl⟩⟩
    unfold Registry.level
    rw [failed]
    rfl
  · refine fun sets solved => ⟨?_, .inr ⟨_, congrArg (Except.map _) solved, rfl, rfl⟩⟩
    unfold Registry.level
    rw [solved]
    rfl

/-- An engine finds the level of a depth. -/
theorem serving_level (k : Nat) :
    (serving registry nullable limit).relates (level k) (registry.level limit k) := by
  intro engine h
  obtain ⟨rfl, rfl, rfl⟩ := h
  cases hk : engine.level? k with
  | some found =>
    obtain ⟨hr, hs⟩ := level_of_kept hk
    rw [hr, hs, level?_eq_some hk]
    exact ⟨rfl, rfl, rfl, rfl⟩
  | none =>
    obtain ⟨hr, hs⟩ := level_of_not_kept hk
    refine ⟨hr, ?_⟩
    rcases hs with ⟨_, _, hs⟩ | ⟨found, hf, _, hs⟩
    · rw [hs]
      exact ⟨rfl, rfl, rfl⟩
    · rw [hs]
      exact ⟨rfl, rfl, rfl⟩

/-- The level of a depth that was found is kept from then on. -/
theorem level?_of_level {engine : Engine} {k : Nat} {found : Level}
    (h : (level k engine).result = .ok found) : (level k engine).state.level? k = some found := by
  cases hk : engine.level? k with
  | some kept =>
    obtain ⟨hr, hs⟩ := level_of_kept hk
    rw [hr] at h
    cases h
    rw [hs, hk]
  | none =>
    obtain ⟨_, ⟨cause, hr, _⟩ | ⟨kept, hf, hr, hs⟩⟩ := level_of_not_kept hk
    · rw [hr] at h
      cases h
    · rw [hr] at h
      cases h
      rw [hs, level?_keep]

/-- An engine gives the first set of a node at a depth. -/
theorem serving_first (id : NodeId) (k : Nat) :
    (serving registry nullable limit).relates (first id k) (registry.firstOf limit id k) :=
  (serving registry nullable limit).bind (serving_level k) fun found _ =>
    Simulation.preserving_ofExcept (found.first id)

/-- An engine gives the first set of nodes in a row at a depth. -/
theorem serving_units (ids : List NodeId) (k : Nat) :
    (serving registry nullable limit).relates (firstOfUnits ids k)
      (registry.firstOfRow limit ids k) :=
  Simulation.firstOfSequence _ (fun id _ => serving_first id k) k FirstSet.epsilon

/-- An engine gives the first set of a production at a depth. -/
theorem serving_production (name : String) (k : Nat) :
    (serving registry nullable limit).relates (firstOfProduction name k)
      (registry.firstOfProduction limit name k) :=
  (serving registry nullable limit).bind (serving_level k) fun _ _ => Simulation.pure _ _

/-- An engine tells whether a node can match the empty word. -/
theorem serving_isNullable (id : NodeId) :
    (serving registry nullable limit).relates (isNullable id)
      ((registry.nullableNodes nullable).isNullable id) := by
  refine Simulation.preserving_get fun engine h => ?_
  rw [h.registry_eq, h.nullable_eq]
  exact Simulation.preserving_ofExcept _

/-- An engine answers every question as the grammar determines. -/
theorem serving_answer (query : Query) :
    (serving registry nullable limit).relates (answer query)
      (registry.answer nullable limit query) := by
  cases query with
  | first id k => exact Simulation.bind _ (serving_first id k) fun set _ => Simulation.pure _ _
  | units ids k => exact Simulation.bind _ (serving_units ids k) fun set _ => Simulation.pure _ _
  | production name k =>
    exact Simulation.bind _ (serving_production name k) fun set _ => Simulation.pure _ _
  | nullable id => exact Simulation.bind _ (serving_isNullable id) fun truth _ => Simulation.pure _ _
  | nodeCount =>
    intro engine h
    obtain ⟨rfl, rfl, rfl⟩ := h
    exact ⟨rfl, rfl, rfl, rfl⟩

/-- An engine answers a row of questions as the grammar determines each of them. -/
theorem answers_eq (queries : List Query) :
    (serving registry nullable limit).relates (answers queries)
      (.ok (queries.map (registry.answer nullable limit))) := by
  induction queries with
  | nil => exact Simulation.pure _ _
  | cons query queries ih =>
    exact Simulation.bind (y := .ok (registry.answer nullable limit query)) _
      (Simulation.preserving_attempt (serving_answer query)) fun reply _ =>
        Simulation.bind _ ih fun replies _ => Simulation.pure _ _

/-- What an engine needs to be started, and what it starts with. -/
theorem start_eq_ok {registry : Registry} {report : Report} {options : Options} {engine : Engine} :
    start registry report options = .ok engine ↔ report.isLeftRecursionFree = true ∧
      options.check = .ok () ∧ (∃ final, registry.owners = .ok final) ∧
      engine = { registry, nullable := report.nullable, limit := options.expansionLimit } := by
  unfold start
  cases report.isLeftRecursionFree with
  | false => exact ⟨nofun, nofun⟩
  | true =>
    simp only [Bool.not_true, Bool.false_eq_true, if_false, true_and]
    constructor
    · intro h
      obtain ⟨_, hc, h⟩ := bind_eq_ok.mp h
      obtain ⟨final, ho, h⟩ := bind_eq_ok.mp h
      cases h
      exact ⟨hc, ⟨final, ho⟩, rfl⟩
    · rintro ⟨hc, ⟨final, ho⟩, rfl⟩
      exact bind_eq_ok.mpr ⟨(), hc, bind_eq_ok.mpr ⟨final, ho, rfl⟩⟩

/-- First sets are exact. On a grammar that an engine accepts, after any questions,
the first set of a node of a production tree has words of 1 to `k` tokens. The
shorter ones are the nonempty words the node derives; those of `k` tokens include
every beginning of a longer one, and where all nodes derive something there are
no others. -/
theorem first_exact {registry : Registry} {report : Report} {options : Options} {engine : Engine}
    (accepted : start registry report options = .ok engine) (history : List Query) {id : NodeId}
    (inside : registry.InProduction id) {k : Nat} (hk : 1 ≤ k) {set : FirstSet}
    (answered : (first id k (answers history engine).state).result = .ok set) :
    (∀ word ∈ set.words, 1 ≤ word.length ∧ word.length ≤ k) ∧
    (∀ word, word ≠ [] → word.length < k →
      (word ∈ set.words ↔ registry.Derives .once id word)) ∧
    (∀ word, registry.Derives .once id word → k ≤ word.length → word.take k ∈ set.words) ∧
    (registry.Productive → ∀ word ∈ set.words, word.length = k →
      ∃ whole, registry.Derives .once id whole ∧ whole.take k = word) := by
  obtain ⟨_, _, ⟨final, ho⟩, rfl⟩ := start_eq_ok.mp accepted
  have hf : registry.firstOf options.expansionLimit id k = .ok set := by
    obtain ⟨_, served⟩ := answers_eq history _ ⟨rfl, rfl, rfl⟩
    rw [← answered, (serving_first id k _ served).1]
  have grounded := Registry.grounded_production ho
  obtain ⟨bounded, begins⟩ := (inside.grounded ho).mem_firstOf hk grounded hf
  have stored {word : Word} (hne : word ≠ []) :
      word ∈ set.words ↔ registry.Begins k id word :=
    ⟨fun hm => (begins word).mp (bounded.mem hm),
      fun hb => FirstSet.mem_words ((begins word).mpr hb) hne⟩
  refine ⟨fun word hm => ?_, fun word hne short => ?_, fun word hd long => ?_,
    fun productive word hm _ => ?_⟩
  · obtain ⟨hne, hl⟩ := bounded word hm
    exact ⟨List.length_pos_iff.mpr hne, hl⟩
  · rw [stored hne]
    constructor
    · intro hb
      obtain ⟨whole, hd, rfl⟩ := hb.exists_derives hk inside (.inl short)
      rw [List.length_take] at short
      rwa [List.take_of_length_le (by omega)]
    · intro hd
      have := hd.begins hk
      rwa [List.take_of_length_le (by omega)] at this
  · refine (stored fun he => ?_).mpr (hd.begins hk)
    have := congrArg List.length he
    rw [List.length_take, List.length_nil] at this
    omega
  · exact ((stored (bounded word hm).1).mp hm).exists_derives hk inside (.inr productive)

/-- The grammar `S -> a S | b`. -/
def rightRecursion : Registry where
  nodes := #[⟨.terminal "a", {}⟩, ⟨.nonTerminal "S" [], {}⟩, ⟨.sequence [0, 1], {}⟩,
    ⟨.terminal "b", {}⟩, ⟨.choice [2, 3], {}⟩]
  productions := [{ name := "S", root := 4 }]
  tokens := ["a", "b"]

/-- The first set of the right-recursive grammar at depth 2, found after a question at
depth 1, holds the complete sentence of one token and no other such word. -/
theorem first_rightRecursion : rightRecursion.Derives .once 4 ["b"] ∧
    ¬rightRecursion.Derives .once 4 ["a"] := by
  have accepted : start rightRecursion ⟨⟨[]⟩, [], [], []⟩ {} =
      .ok { registry := rightRecursion, nullable := [], limit := 10000 } := by
    have owned : rightRecursion.owners.toOption.isSome = true := by decide +kernel
    exact start_eq_ok.mpr ⟨rfl, rfl, exists_eq_ok_of_isSome owned, rfl⟩
  have computed : ((first 4 2 (answers [.first 4 1]
      { registry := rightRecursion, nullable := [], limit := 10000 }).state).result.toOption.map
      fun set => set.words.toList) = some [["a", "a"], ["a", "b"], ["b"]] := by
    decide +kernel
  obtain ⟨set, hs, words⟩ := Option.map_eq_some_iff.mp computed
  have answered := toOption_eq_some.mp hs
  have inside : rightRecursion.InProduction 4 := ⟨_, List.mem_cons_self, .refl⟩
  have found := (first_exact accepted [.first 4 1] inside (by decide) answered).2.1
  simp only [← Std.ExtTreeSet.mem_toList, words] at found
  constructor
  · exact (found ["b"] (by decide) (by decide)).mp (by decide)
  · exact fun h => absurd ((found ["a"] (by decide) (by decide)).mpr h) (by decide)

end Engine

end BoundedLookahead
