import BoundedLookahead.Proofs.EngineAnswers

/-!
# Nodes in a row

The first set of nodes in a row is found from those of the nodes, as that of a sequence of
them is. It differs from that of the sequence in two ways. Nobody compares the set of the
whole row with the limit, only those of the nodes; and where there are no nodes, solving for
the productions has no part in it.
-/

namespace BoundedLookahead

/-- The first set of a row follows from those of its units. -/
theorem firstOfSequence_congr {m : Type → Type} [Monad m] {α : Type} {first later : α → m FirstSet}
    (k : Nat) (before : FirstSet) {units : List α} (same : ∀ unit ∈ units, first unit = later unit) :
    firstOfSequence first k before units = firstOfSequence later k before units := by
  induction units generalizing before with
  | nil => rfl
  | cons unit units ih =>
    rw [List.forall_mem_cons] at same
    simp only [firstOfSequence, same.1, ih _ same.2]

namespace Registry

variable {registry : Registry} {limit k : Nat} {row : NodeId} {units : List NodeId}

/-- Where the productions are solved, the first set of a row is found from their sets. -/
theorem firstOfRow_of_solved {sets : SetTable} (grounded : ∀ unit ∈ units, registry.Grounded unit)
    (solved : (registry.solveFirst limit k).outcome = .ok sets) :
    registry.firstOfRow limit units k =
      firstOfSequence (registry.firstAt sets k limit) k FirstSet.epsilon units := by
  refine firstOfSequence_congr k FirstSet.epsilon fun unit hm => ?_
  rw [(grounded unit hm).firstOf_eq, solved, ok_bind]

/-- Where they are not, that of a row with nodes fails in the same way: the first node is
always looked at. -/
theorem firstOfRow_of_unsolved {cause : AnalysisError}
    (grounded : ∀ unit ∈ units, registry.Grounded unit) (nonempty : units ≠ [])
    (failed : (registry.solveFirst limit k).outcome = .error cause) :
    registry.firstOfRow limit units k = .error cause := by
  obtain ⟨unit, rest, rfl⟩ := List.exists_cons_of_ne_nil nonempty
  have first : registry.firstOf limit unit k = .error cause := by
    rw [(grounded unit List.mem_cons_self).firstOf_eq, failed]
    rfl
  have unsaturated : FirstSet.epsilon.saturated k ≠ true := by simp [FirstSet.saturated, FirstSet.epsilon]
  rw [firstOfRow, firstOfSequence, if_neg unsaturated, first]
  rfl

/-- The first set of a sequence is that of its row of units, when that is within the limit. -/
theorem Grounded.firstOf_sequence (h : registry.Grounded row)
    (he : registry.expansion? row = some (.sequence units)) (nonempty : units ≠ []) :
    registry.firstOf limit row k =
      registry.firstOfRow limit units k >>= fun set => set.within row k limit := by
  have grounded : ∀ unit ∈ units, registry.Grounded unit := h.of_expansion he
  rw [h.firstOf_eq]
  cases solved : (registry.solveFirst limit k).outcome with
  | error cause =>
    rw [firstOfRow_of_unsolved grounded nonempty solved]
    rfl
  | ok sets =>
    rw [firstOfRow_of_solved grounded solved, ok_bind, h.firstAt_eq he]
    rfl

/-- The first set of a sequence without units is that of the empty word, once the productions
are solved. -/
theorem Grounded.firstOf_emptySequence (h : registry.Grounded row)
    (he : registry.expansion? row = some (.sequence [])) :
    registry.firstOf limit row k =
      (registry.solveFirst limit k).outcome.map fun _ => FirstSet.epsilon := by
  rw [h.firstOf_eq]
  cases (registry.solveFirst limit k).outcome with
  | error cause => rfl
  | ok sets =>
    have within : FirstSet.epsilon.size ≤ limit := Nat.zero_le limit
    rw [ok_bind]
    exact (h.firstAt_eq_ok he).mpr ⟨rfl, within⟩

/-- A first set of a sequence that is found is that of its row of units. -/
theorem Grounded.firstOfRow_of_firstOf {set : FirstSet} (h : registry.Grounded row)
    (he : registry.expansion? row = some (.sequence units)) (hs : registry.firstOf limit row k = .ok set) :
    registry.firstOfRow limit units k = .ok set := by
  by_cases none : units = []
  · subst none
    rw [h.firstOf_emptySequence he] at hs
    cases solved : (registry.solveFirst limit k).outcome with
    | error cause =>
      rw [solved] at hs
      cases hs
    | ok sets =>
      rw [solved] at hs
      exact hs
  · rw [h.firstOf_sequence he none] at hs
    obtain ⟨found, hf, hw⟩ := bind_eq_ok.mp hs
    obtain ⟨rfl, _⟩ := FirstSet.within_eq_ok.mp hw
    exact hf

end Registry

namespace Engine

variable {registry : Registry} {report : Report} {options : Options} {engine : Engine}

/-- After any questions, an engine finds for the units of a sequence the first set of the
sequence or the same error, but for two cases: a set beyond the limit is refused for the
sequence and given for its units, and for no units the empty word is given without solving
for the productions. So the first set of a sequence is always that of its units. -/
theorem firstOfUnits_sequence (accepted : start registry report options = .ok engine)
    (history : List Query) {row : NodeId} {units : List NodeId} (inside : registry.InProduction row)
    (he : registry.expansion? row = some (.sequence units)) (k : Nat) :
    (units ≠ [] → (first row k engine).result =
      (firstOfUnits units k (answers history engine).state).result >>= fun set =>
        set.within row k options.expansionLimit) ∧
    (units = [] → (firstOfUnits units k (answers history engine).state).result = .ok FirstSet.epsilon ∧
      (first row k engine).result =
        (registry.solveFirst options.expansionLimit k).outcome.map fun _ => FirstSet.epsilon) ∧
    ∀ set, (first row k engine).result = .ok set ↔
      (firstOfUnits units k (answers history engine).state).result = .ok set ∧
        set.size ≤ options.expansionLimit ∧
        (units = [] → ∃ sets, (registry.solveFirst options.expansionLimit k).outcome = .ok sets) := by
  obtain ⟨_, _, ⟨final, ho⟩, rfl⟩ := start_eq_ok.mp accepted
  have below := inside.grounded ho
  obtain ⟨_, served⟩ := answers_eq history _ ⟨rfl, rfl, rfl⟩
  rw [(serving_units units k _ served).1, (serving_first row k _ ⟨rfl, rfl, rfl⟩).1]
  by_cases none : units = []
  · subst none
    have empty : registry.firstOfRow options.expansionLimit [] k = .ok FirstSet.epsilon := rfl
    have within : FirstSet.epsilon.size ≤ options.expansionLimit := Nat.zero_le _
    rw [below.firstOf_emptySequence he, empty]
    refine ⟨fun h => absurd rfl h, fun _ => ⟨rfl, rfl⟩, fun set => ?_⟩
    cases (registry.solveFirst options.expansionLimit k).outcome with
    | error cause => simp [Except.map]
    | ok sets =>
      constructor
      · intro h
        cases h
        exact ⟨rfl, within, fun _ => ⟨sets, rfl⟩⟩
      · rintro ⟨h, _⟩
        cases h
        rfl
  · rw [below.firstOf_sequence he none]
    refine ⟨fun _ => rfl, fun h => absurd h none, fun set => ?_⟩
    rw [bind_eq_ok]
    constructor
    · rintro ⟨found, hf, hw⟩
      obtain ⟨rfl, small⟩ := FirstSet.within_eq_ok.mp hw
      exact ⟨hf, small, fun h => absurd h none⟩
    · rintro ⟨hf, small, _⟩
      exact ⟨set, hf, FirstSet.within_eq_ok.mpr ⟨rfl, small⟩⟩

/-- The grammar `T -> x ((a | b)? (c | d))`. -/
def wideTail : Registry where
  nodes := #[⟨.terminal "x", {}⟩, ⟨.terminal "a", {}⟩, ⟨.terminal "b", {}⟩, ⟨.choice [1, 2], {}⟩,
    ⟨.repetition .zeroOrOne 3 none, {}⟩, ⟨.terminal "c", {}⟩, ⟨.terminal "d", {}⟩, ⟨.choice [5, 6], {}⟩,
    ⟨.sequence [4, 7], {}⟩, ⟨.sequence [0, 8], {}⟩]
  productions := [{ name := "T", root := 9 }]
  tokens := ["a", "b", "c", "d", "x"]

/-- With no more than three words allowed, the tail has no first set at depth 1, but its
units have one together, with four words. Solving for `T` does not come to the tail. -/
theorem firstOfUnits_wideTail : ∃ engine set,
    start wideTail ⟨⟨[]⟩, [], [], []⟩ { expansionLimit := 3 } = .ok engine ∧
      (firstOfUnits [4, 7] 1 engine).result = .ok set ∧
      set.words.toList = [["a"], ["b"], ["c"], ["d"]] ∧
      (first 8 1 engine).result = .error (.limitExceeded 8 1 4 3) := by
  have owned : wideTail.owners.toOption.isSome = true := by decide +kernel
  have accepted : start wideTail ⟨⟨[]⟩, [], [], []⟩ { expansionLimit := 3 } =
      .ok { registry := wideTail, nullable := [], limit := 3 } :=
    start_eq_ok.mpr ⟨rfl, rfl, exists_eq_ok_of_isSome owned, rfl⟩
  have computed : (firstOfUnits [4, 7] 1
      { registry := wideTail, nullable := [], limit := 3 }).result.toOption.map (fun set =>
        (set.words.toList, set.size)) = some ([["a"], ["b"], ["c"], ["d"]], 4) := by
    decide +kernel
  obtain ⟨set, hs, found⟩ := Option.map_eq_some_iff.mp computed
  obtain ⟨words, size⟩ := Prod.mk.inj found
  have given := toOption_eq_some.mp hs
  have tail : 8 ∈ wideTail.childIds 9 := by decide
  have inside : wideTail.InProduction 8 := ⟨_, List.mem_cons_self, .single tail⟩
  have whole := (firstOfUnits_sequence accepted [] inside rfl 1).1 (List.cons_ne_nil _ _)
  refine ⟨_, set, accepted, given, words, ?_⟩
  have same : (answers [] { registry := wideTail, nullable := [], limit := 3 }).state =
      { registry := wideTail, nullable := [], limit := 3 } := rfl
  rw [whole, same, given, ok_bind, FirstSet.within, size]
  rfl

end Engine

end BoundedLookahead
