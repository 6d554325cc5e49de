import BoundedLookahead.Proofs.Stages

/-!
# Markers of first sets

The marker of a first set and the search for nullable productions say the same at
every depth, 0 included. A row that is left early is left behind a part that cannot
match nothing, so its marker is still that of all its units; and each round marks
what the sweeps justify, until the markers are closed under the productions.
-/

namespace BoundedLookahead

section

variable {α : Type} {first : α → Except AnalysisError FirstSet} {empty : α → Bool} {k : Nat}

/-- A row of units is marked when the part before it and all its units are. -/
theorem nullable_firstOfSequence {units : List α} {before result : FirstSet}
    (marked : ∀ unit ∈ units, ∀ set, first unit = .ok set → set.nullable = empty unit)
    (h : firstOfSequence first k before units = .ok result) :
    result.nullable = (before.nullable && units.all empty) := by
  induction units generalizing before with
  | nil =>
    cases h
    rw [List.all_nil, Bool.and_true]
  | cons unit units ih =>
    rw [List.forall_mem_cons] at marked
    simp only [firstOfSequence] at h
    split at h
    · next saturated =>
      have unmarked : before.nullable = false := by
        simp only [FirstSet.saturated, Bool.and_eq_true, Bool.not_eq_true'] at saturated
        exact saturated.1
      cases h
      rw [unmarked, Bool.false_and]
    · obtain ⟨set, hs, h⟩ := bind_eq_ok.mp h
      rw [ih marked.2 h, FirstSet.concat, marked.1 set hs, List.all_cons, Bool.and_assoc]

/-- Alternatives are marked together with others when one of them is, or the others are. -/
theorem nullable_firstOfChoice {alternatives : List α} {others result : FirstSet}
    (marked : ∀ child ∈ alternatives, ∀ set, first child = .ok set → set.nullable = empty child)
    (h : firstOfChoice first others alternatives = .ok result) :
    result.nullable = (others.nullable || alternatives.any empty) := by
  induction alternatives generalizing others with
  | nil =>
    cases h
    rw [List.any_nil, Bool.or_false]
  | cons alternative alternatives ih =>
    rw [List.forall_mem_cons] at marked
    obtain ⟨set, hs, h⟩ := bind_eq_ok.mp h
    rw [ih marked.2 h, FirstSet.union, marked.1 set hs, List.any_cons, Bool.or_assoc]

end

namespace Registry

variable {registry : Registry} {id : NodeId} {sets next : SetTable} {k limit : Nat} {set : FirstSet}

/-- A node has the marker its tree gets from the markers of the productions. -/
theorem Grounded.nullable_firstAt {names : List String} (h : registry.Grounded id)
    (tables : ∀ name, (sets.find name).nullable = names.contains name)
    (hf : registry.firstAt sets k limit id = .ok set) :
    set.nullable = (registry.tree id).nullable names := by
  induction h generalizing set with
  | @node id entry found below ih =>
    obtain ⟨expansion, location⟩ := entry
    have he : registry.expansion? id = some expansion := by simp [expansion?, found]
    replace hf := (((Grounded.node found below).firstAt_eq_ok he).mp hf).1
    rw [(Grounded.node found below).tree_eq found]
    dsimp only at ih
    cases expansion with
    | terminal kind =>
      cases hf
      rfl
    | nonTerminal name args =>
      cases hf
      exact tables name
    | sequence units =>
      rw [nullable_firstOfSequence (fun unit hu set hs => ih unit hu hs) hf]
      simp only [FirstSet.epsilon, Expansion.map, Tree.nullable, Tree.allNullable_eq_all,
        List.all_map, Bool.true_and]
      rfl
    | choice alternatives =>
      rw [nullable_firstOfChoice (fun child hc set hs => ih child hc hs) hf]
      simp only [FirstSet.empty, Expansion.map, Tree.nullable, Tree.anyNullable_eq_any,
        List.any_map, Bool.false_or]
      rfl
    | repetition kind body guard =>
      have hb : body ∈ (Expansion.repetition kind body guard).children := by
        simp [Expansion.children]
      cases kind with
      | oneOrMore => exact ih body hb hf
      | _ =>
        obtain ⟨inner, _, hf⟩ := bind_eq_ok.mp hf
        cases hf
        exact Bool.or_true _
    | lookahead directive =>
      cases hf
      rfl
    | action code =>
      cases hf
      rfl
    | tryBlock body handlers cleanup => exact ih body (by simp [Expansion.children]) hf

/-- The productions whose sets are marked. -/
def markedNames (registry : Registry) (sets : SetTable) : List String :=
  registry.names.filter fun name => (sets.find name).nullable

/-- Every production whose set is marked derives the empty word. -/
def SoundMarkers (registry : Registry) (sets : SetTable) : Prop :=
  ∀ name, (sets.find name).nullable = true → registry.IsNullable name

/-- In the beginning nothing is marked. -/
theorem soundMarkers_initialSets : registry.SoundMarkers registry.initialSets := by
  intro name marked
  rw [find_initialSets] at marked
  cases marked

/-- The productions whose sets are marked say which sets are. -/
theorem SoundMarkers.nullable_find (h : registry.SoundMarkers sets) (name : String) :
    (sets.find name).nullable = (registry.markedNames sets).contains name := by
  rw [Bool.eq_iff_iff, List.contains_iff_mem, markedNames, List.mem_filter]
  refine ⟨fun marked => ⟨?_, marked⟩, And.right⟩
  obtain ⟨production, found, _⟩ := h name marked
  exact isDefined_iff.mp (Option.isSome_iff_exists.mpr ⟨production, found⟩)

/-- A level has the sets that solving ends in. -/
theorem level_eq_ok {found : Level} : registry.level limit k = .ok found ↔
    ∃ sets, (registry.solveFirst limit k).outcome = .ok sets ∧
      registry.levelOf limit k sets = found := by
  unfold level
  cases (registry.solveFirst limit k).outcome with
  | error cause => exact ⟨nofun, nofun⟩
  | ok sets => simp [Except.map]

section

variable (grounded : ∀ production ∈ registry.productions, registry.Grounded production.root)

include grounded

/-- A round marks only productions that derive the empty word. -/
theorem SoundMarkers.round (h : registry.SoundMarkers sets)
    (hr : registry.Round k limit sets next) : registry.SoundMarkers next := by
  intro name marked
  by_cases hn : name ∈ registry.names
  · obtain ⟨production, hp, rfl⟩ := List.mem_map.mp hn
    have hg := grounded production hp
    rw [hg.nullable_firstAt h.nullable_find (hr.solved production hp)] at marked
    refine ⟨production, production?_eq_some hp, hg.derives_nil (fun name hm => h name ?_) marked⟩
    exact (List.mem_filter.mp hm).2
  · rw [hr.find_of_not_mem hn] at marked
    cases marked

/-- In sets that a round gives back, a node is marked exactly when it derives the empty
word: the marked productions are closed under what is nullable given them. -/
theorem SoundMarkers.nullable_iff (h : registry.SoundMarkers sets)
    (hr : registry.Round k limit sets sets) (hg : registry.Grounded id)
    (hf : registry.firstAt sets k limit id = .ok set) :
    set.nullable = true ↔ registry.Derives .repeated id [] := by
  rw [hg.nullable_firstAt h.nullable_find hf]
  constructor
  · exact hg.derives_nil fun name hm => h name (List.mem_filter.mp hm).2
  · refine fun hd => hd.nullable hg grounded (fun production hp marked => ?_)
      (by simp only [Iteration.repeated]; omega) rfl
    rw [← (grounded production hp).nullable_firstAt h.nullable_find (hr.solved production hp),
      h.nullable_find] at marked
    exact List.contains_iff_mem.mp marked

/-- Solving ends in sets with right markers that a round gives back. -/
theorem soundMarkers_solveFirst (hs : (registry.solveFirst limit k).outcome = .ok sets) :
    registry.SoundMarkers sets ∧ registry.Round k limit sets sets :=
  Rounds.invariant (solveFirst_rounds grounded) soundMarkers_initialSets
    (fun _ _ hr sound => sound.round grounded hr) hs

/-- At every depth the first set of a node is marked exactly when the node derives the
empty word. -/
theorem Grounded.nullable_firstOf_iff (hg : registry.Grounded id)
    (hf : registry.firstOf limit id k = .ok set) :
    set.nullable = true ↔ registry.Derives .repeated id [] := by
  rw [hg.firstOf_eq] at hf
  obtain ⟨sets, hs, hf⟩ := bind_eq_ok.mp hf
  obtain ⟨sound, round⟩ := soundMarkers_solveFirst grounded hs
  exact sound.nullable_iff grounded round hg hf

/-- At every depth the first set of a name is marked exactly when the name is that of a
production that derives the empty word. -/
theorem nullable_firstOfProduction_iff {name : String}
    (hf : registry.firstOfProduction limit name k = .ok set) :
    set.nullable = true ↔ registry.IsNullable name := by
  obtain ⟨found, hl, hf⟩ := bind_eq_ok.mp hf
  cases hf
  obtain ⟨sets, hs, rfl⟩ := level_eq_ok.mp hl
  obtain ⟨sound, round⟩ := soundMarkers_solveFirst grounded hs
  refine ⟨sound name, ?_⟩
  rintro ⟨production, found, hd⟩
  have hp : production ∈ registry.productions := List.mem_of_find?_eq_some found
  obtain rfl : production.name = name := by simpa using List.find?_some found
  exact (sound.nullable_iff grounded round (grounded production hp)
    (round.solved production hp)).mpr hd

end

end Registry

namespace Engine

variable {σ : Type} {registry : Registry} {checked options : Options} {report : Report}
  {engine : Engine} {state : σ}

/-- The two ways to find empty words agree. On a grammar that an engine accepts with the
grammar's own report, whatever was asked before either of them, a first set at any depth
has its marker exactly when the node, or the production, is reported as nullable, and
both are so exactly when it derives the empty word. -/
theorem nullable_agrees (valid : (registry.validate checked state).result = .ok report)
    (accepted : start registry report options = .ok engine) (history later : List Query) (k : Nat) :
    (∀ id, registry.InDefinition id → ∀ set,
      (first id k (answers history engine).state).result = .ok set →
        (isNullable id (answers later engine).state).result = .ok set.nullable ∧
          (set.nullable = true ↔ registry.Derives .repeated id [])) ∧
    ∀ name set, (firstOfProduction name k (answers history engine).state).result = .ok set →
      report.isNullable name = set.nullable ∧
        (set.nullable = true ↔ registry.IsNullable name) := by
  obtain ⟨_, _, ⟨final, ho⟩, rfl⟩ := start_eq_ok.mp accepted
  have grounded := Registry.grounded_production ho
  have hn : registry.nullableNames = .ok report.nullable := by
    rw [Registry.validate_result] at valid
    obtain ⟨names, hn, valid⟩ := bind_eq_ok.mp valid
    obtain ⟨found, _, valid⟩ := bind_eq_ok.mp valid
    cases valid
    exact hn
  have started : Serves { registry, nullable := report.nullable, limit := options.expansionLimit }
      registry report.nullable options.expansionLimit := ⟨rfl, rfl, rfl⟩
  have served (queries : List Query) := (answers_eq queries _ started).2
  constructor
  · intro id inside set answered
    have below := inside.grounded ho
    rw [(serving_first id k _ (served history)).1] at answered
    have marked := below.nullable_firstOf_iff grounded answered
    refine ⟨?_, marked⟩
    rw [(serving_isNullable id _ (served later)).1, below.isNullable_eq, Except.ok.injEq,
      Bool.eq_iff_iff, marked, below.nullable_iff grounded hn]
  · intro name set answered
    have production : (serving registry report.nullable options.expansionLimit).relates
        (firstOfProduction name k) (registry.firstOfProduction options.expansionLimit name k) :=
      serving_production name k
    rw [(production _ (served history)).1] at answered
    have marked := Registry.nullable_firstOfProduction_iff grounded answered
    refine ⟨?_, marked⟩
    rw [Bool.eq_iff_iff, marked, Report.isNullable, List.contains_iff_mem,
      Registry.mem_nullableNames_iff grounded hn]

/-- The grammar `Start -> List end; List -> x List | ( )`. -/
def closedList : Registry where
  nodes := #[⟨.terminal "x", {}⟩, ⟨.nonTerminal "List" [], {}⟩, ⟨.sequence [0, 1], {}⟩,
    ⟨.action "", {}⟩, ⟨.choice [2, 3], {}⟩,
    ⟨.nonTerminal "List" [], {}⟩, ⟨.terminal "end", {}⟩, ⟨.sequence [5, 6], {}⟩]
  productions := [{ name := "Start", root := 7 }, { name := "List", root := 4 }]
  tokens := ["x", "end"]

/-- At depth 0, asked after a question at depth 1, the list has the marker and the start
has not: the one derives the empty word, the other does not. -/
theorem nullable_closedList : closedList.Derives .repeated 4 [] ∧
    ¬closedList.Derives .repeated 7 [] ∧ closedList.IsNullable "List" := by
  have checked : ((closedList.validate {} ()).result.toOption.map
      fun report => (report.cycles, report.nullable)) = some ([], ["List"]) := by decide +kernel
  obtain ⟨report, hr, fields⟩ := Option.map_eq_some_iff.mp checked
  rw [Prod.mk.injEq] at fields
  obtain ⟨cycles, nullable⟩ := fields
  have forest : closedList.owners.toOption.isSome = true := by decide +kernel
  have accepted : start closedList report {} =
      .ok { registry := closedList, nullable := ["List"], limit := 10000 } := by
    refine start_eq_ok.mpr ⟨?_, rfl, exists_eq_ok_of_isSome forest, ?_⟩
    · rw [Report.isLeftRecursionFree, cycles]
      rfl
    · rw [nullable]
  obtain ⟨nodes, productions⟩ :=
    nullable_agrees (toOption_eq_some.mp hr) accepted [.first 7 1] [.nullable 4] 0
  have computed : [first 4 0, first 7 0, firstOfProduction "List" 0].map (fun find =>
      (find (answers [.first 7 1]
        { registry := closedList, nullable := ["List"], limit := 10000 }).state).result.toOption.map
          FirstSet.nullable) = [some true, some false, some true] := by
    decide +kernel
  simp only [List.map_cons, List.map_nil, List.cons.injEq, and_true] at computed
  obtain ⟨list, start, named⟩ := computed
  have inside (position : Nat) (h : position < closedList.productions.length) :
      closedList.InDefinition closedList.productions[position].root :=
    .production (List.getElem_mem h)
  refine ⟨?_, fun hd => ?_, ?_⟩
  · obtain ⟨set, hs, marked⟩ := Option.map_eq_some_iff.mp list
    exact (nodes 4 (inside 1 (by decide)) set (toOption_eq_some.mp hs)).2.mp marked
  · obtain ⟨set, hs, unmarked⟩ := Option.map_eq_some_iff.mp start
    have marked := (nodes 7 (inside 0 (by decide)) set (toOption_eq_some.mp hs)).2.mpr hd
    rw [unmarked] at marked
    cases marked
  · obtain ⟨set, hs, marked⟩ := Option.map_eq_some_iff.mp named
    exact (productions "List" set (toOption_eq_some.mp hs)).2.mp marked

end Engine

end BoundedLookahead
