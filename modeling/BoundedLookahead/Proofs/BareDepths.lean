import BoundedLookahead.Proofs.Defaults

/-!
# Bare depths

A guard that gives a depth and nothing else is to change only how far the computed test
looks. In a choice it does no more: with the same sets and the same marks the entries
select alike without it, since an alternative that can match nothing is the default or
stands behind one. A repetition has no default to fall back on. There a bare depth lets
every token into a body that can match nothing, and changes nothing where the body
cannot.
-/

namespace BoundedLookahead

/-- The entry without a guard that does not override. -/
def ChoiceEntry.withoutDepth (entry : ChoiceEntry) : ChoiceEntry :=
  { entry with guard := entry.guard.filter Guard.overrides }

/-- The choice without the guards that do not override; depths, sets and marks are kept. -/
def ChoiceDecision.withoutDepths (decision : ChoiceDecision) : ChoiceDecision :=
  { decision with entries := decision.entries.map ChoiceEntry.withoutDepth }

/-- The repetition without a guard that does not override; its depth and its set are kept. -/
def LoopDecision.withoutDepth (decision : LoopDecision) : LoopDecision :=
  { decision with guard := decision.guard.filter Guard.overrides }

section

variable {m : Type → Type} [Monad m] {upcoming : List Token} {answer : String → m Bool}

namespace ChoiceEntry

variable {entry : ChoiceEntry}

/-- A guard that overrides is kept. -/
theorem withoutDepth_of_overrides (h : Guard.overridesIn entry.guard = true) :
    entry.withoutDepth = entry := by
  obtain ⟨alternative, node, depth, lookahead, guard, isDefault⟩ := entry
  cases guard with
  | none => cases h
  | some guard =>
    have overrides : guard.overrides = true := h
    simp only [withoutDepth, Option.filter, overrides, if_true]

/-- Without a guard that does not override there is none. -/
theorem guard_withoutDepth (plain : Guard.overridesIn entry.guard = false) :
    entry.withoutDepth.guard = none := by
  unfold withoutDepth
  cases hg : entry.guard with
  | none => rfl
  | some guard =>
    rw [hg] at plain
    have bare : guard.overrides = false := plain
    simp only [Option.filter, bare, Bool.false_eq_true, if_false]

/-- An entry that is as lenient as its mark says admits the same tokens without a bare
depth. -/
theorem admitsM_withoutDepth (lenient : Guard.overridesIn entry.guard = false →
    entry.isLenient = entry.isDefault) :
    entry.withoutDepth.admitsM upcoming answer = entry.admitsM upcoming answer := by
  cases ho : Guard.overridesIn entry.guard with
  | true => rw [withoutDepth_of_overrides ho]
  | false =>
    rw [admitsM_of_not_overrides ho, lenient ho, admitsM, guard_withoutDepth ho]
    rfl

end ChoiceEntry

/-- Entries that are marked as defaults are, select alike without bare depths: those before
the default are no more lenient with one, and those behind it are not reached. -/
theorem MarkedFirst.selectFromM_withoutDepth [LawfulMonad m] {entries : List ChoiceEntry}
    (h : MarkedFirst entries) :
    ChoiceDecision.selectFromM upcoming answer (entries.map ChoiceEntry.withoutDepth) =
      ChoiceDecision.selectFromM upcoming answer entries := by
  induction h with
  | nil => rfl
  | @passed entry entries ineligible unmarked rest ih =>
    have same : entry.withoutDepth.admitsM upcoming answer = entry.admitsM upcoming answer :=
      ChoiceEntry.admitsM_withoutDepth fun plain => by
        rw [ChoiceEntry.not_isLenient plain ineligible unmarked, unmarked]
    rw [List.map_cons, ChoiceDecision.selectFromM, ChoiceDecision.selectFromM, same, ih]
    rfl
  | @default entry entries eligible marked behind =>
    have same : entry.withoutDepth.admitsM upcoming answer = entry.admitsM upcoming answer :=
      ChoiceEntry.admitsM_withoutDepth fun _ =>
        (ChoiceEntry.isLenient_of_isEligible eligible marked).trans marked.symm
    have admitted : entry.admitsM upcoming answer = pure true :=
      ChoiceEntry.admitsM_of_isDefault eligible marked
    rw [List.map_cons, ChoiceDecision.selectFromM, ChoiceDecision.selectFromM, same, admitted,
      pure_bind, pure_bind]
    rfl

end

/-- A repetition whose bare depth is deleted is entered on what its set accepts. -/
theorem LoopDecision.enters_withoutDepth {decision : LoopDecision} {guard : Guard}
    (given : decision.guard = some guard) (bare : guard.overrides = false)
    (upcoming : List Token) :
    decision.withoutDepth.enters upcoming = decision.lookahead.accepts upcoming := by
  have none : decision.withoutDepth.guard = none := by
    rw [withoutDepth, given, Option.filter, bare]
    rfl
  rw [enters, entersWith, none]
  rfl

namespace Registry

variable {σ : Type} {registry : Registry} {options : Options} {state : σ} {analysis : Analysis}

/-- A bare depth changes how far the test of a choice looks and nothing else: with the same
sets and the same default the choice selects alike, and asks the same predicates, when the
guards that do not override are deleted. The test of a repetition it leaves as it is where
the body cannot match nothing; into any other body it lets every token. -/
theorem bareDepths_exact (analyzed : (registry.analyze options state).result = .ok analysis) :
    (∀ id decision, analysis.decisions.choice? id = some decision → ∀ upcoming,
      (∀ holds, decision.withoutDepths.selectWith upcoming holds =
        decision.selectWith upcoming holds) ∧
      ∀ (m : Type → Type) [Monad m] [LawfulMonad m] (answer : String → m Bool),
        decision.withoutDepths.selectM upcoming answer = decision.selectM upcoming answer) ∧
    ∀ id decision guard, analysis.decisions.loop? id = some decision →
      decision.guard = some guard → guard.overrides = false →
        (decision.lookahead.nullable = true ↔ registry.Derives .repeated decision.body []) ∧
        (∀ upcoming, decision.withoutDepth.enters upcoming = decision.lookahead.accepts upcoming) ∧
        (decision.lookahead.nullable = false → ∀ upcoming holds,
          decision.entersWith upcoming holds = ⟨decision.lookahead.accepts upcoming, []⟩) ∧
        (decision.lookahead.nullable = true → ∀ upcoming holds,
          decision.entersWith upcoming holds = ⟨true, []⟩) := by
  refine ⟨fun id decision decided upcoming => ?_, fun id decision guard decided given bare => ?_⟩
  · have marked := markedFirst_of_choice? analyzed decided
    have same (m : Type → Type) [Monad m] [LawfulMonad m] (answer : String → m Bool) :
        decision.withoutDepths.selectM upcoming answer = decision.selectM upcoming answer :=
      marked.selectFromM_withoutDepth
    exact ⟨fun holds => ChoiceDecision.selectWith_congr holds (same _), same⟩
  · obtain ⟨inside, about⟩ := decidedAs_of_get? analyzed (DecisionTable.loop?_eq_some.mp decided)
    obtain ⟨_, ⟨final, ho⟩, _⟩ := analyze_eq_ok analyzed
    have grounded := grounded_production ho
    have verdict (upcoming : List Token) (holds : String → Bool) :
        decision.entersWith upcoming holds =
          ⟨decision.lookahead.nullable || decision.lookahead.accepts upcoming, []⟩ := by
      rw [LoopDecision.entersWith, given]
      exact Guard.admits_of_not_overrides bare decision.lookahead
    cases about with
    | loop he positive first =>
    have below : registry.Grounded decision.body :=
      (inside.of_child he (by simp [Expansion.children])).grounded_of grounded
    refine ⟨below.nullable_firstOf_iff grounded first,
      LoopDecision.enters_withoutDepth given bare, fun full upcoming holds => ?_,
      fun empty upcoming holds => ?_⟩
    · rw [verdict, full, Bool.false_or]
    · rw [verdict, empty, Bool.true_or]

/-- The grammar `S -> O L C; O -> [LOOKAHEAD(2) [a]]; L -> (LOOKAHEAD(2) a b)*;
C -> LOOKAHEAD(2) b | LOOKAHEAD(2)`, written in one production. -/
def deepOptional : Registry where
  nodes := #[⟨.lookahead { amount := some 2 }, {}⟩, ⟨.terminal "a", {}⟩,
    ⟨.repetition .zeroOrOne 1 none, {}⟩, ⟨.sequence [0, 2], {}⟩,
    ⟨.repetition .zeroOrOne 3 none, {}⟩,
    ⟨.lookahead { amount := some 2 }, {}⟩, ⟨.terminal "a", {}⟩, ⟨.terminal "b", {}⟩,
    ⟨.sequence [5, 6, 7], {}⟩, ⟨.repetition .zeroOrMore 8 none, {}⟩,
    ⟨.lookahead { amount := some 2 }, {}⟩, ⟨.terminal "b", {}⟩, ⟨.sequence [10, 11], {}⟩,
    ⟨.lookahead { amount := some 2 }, {}⟩, ⟨.choice [12, 13], {}⟩, ⟨.sequence [4, 9, 14], {}⟩]
  productions := [{ name := "S", root := 15 }]
  tokens := ["a", "b"]

/-- The choice of that grammar takes its default with and without the bare depths. Its
second loop tests two tokens. Its first one, whose body can match nothing, is entered
before a token that its set does not accept. -/
theorem bareDepths_deepOptional : ∃ analysis choice loop idle,
    (deepOptional.analyze {} ()).result = .ok analysis ∧
      analysis.decisions.choice? 14 = some choice ∧ choice.select ["a"] = some 1 ∧
      choice.withoutDepths.select ["a"] = choice.select ["a"] ∧
      analysis.decisions.loop? 9 = some loop ∧ loop.enters ["a", "a"] = false ∧
      analysis.decisions.loop? 4 = some idle ∧ idle.enters ["b"] = true ∧
      idle.withoutDepth.enters ["b"] = false := by
  have computed : ((deepOptional.analyze {} ()).result.toOption.bind fun analysis =>
      (analysis.decisions.choice? 14).bind fun choice =>
        (analysis.decisions.loop? 9).bind fun loop => (analysis.decisions.loop? 4).map fun idle =>
          (choice.select ["a"],
            (loop.guard, loop.lookahead.nullable, loop.lookahead.accepts ["a", "a"]),
            idle.guard, idle.lookahead.nullable, idle.lookahead.accepts ["b"])) =
      some (some 1, (some ⟨some 2, none, none⟩, false, false),
        some ⟨some 2, none, none⟩, true, false) := by
    decide +kernel
  obtain ⟨analysis, ha, found⟩ := Option.bind_eq_some_iff.mp computed
  obtain ⟨choice, hchoice, found⟩ := Option.bind_eq_some_iff.mp found
  obtain ⟨loop, hloop, found⟩ := Option.bind_eq_some_iff.mp found
  obtain ⟨idle, hidle, found⟩ := Option.map_eq_some_iff.mp found
  simp only [Prod.mk.injEq] at found
  obtain ⟨selected, ⟨given, full, refused⟩, given', empty, refused'⟩ := found
  have analyzed := toOption_eq_some.mp ha
  obtain ⟨choices, loops⟩ := bareDepths_exact analyzed
  obtain ⟨_, _, exact, _⟩ := loops 9 loop _ hloop given rfl
  obtain ⟨_, deleted, _, always⟩ := loops 4 idle _ hidle given' rfl
  refine ⟨analysis, choice, loop, idle, analyzed, hchoice, selected, ?_, hloop, ?_, hidle, ?_, ?_⟩
  · exact congrArg Verdict.value ((choices 14 choice hchoice ["a"]).1 fun _ => true)
  · rw [LoopDecision.enters, exact full, refused]
  · rw [LoopDecision.enters, always empty]
  · rw [deleted, refused']

end Registry

end BoundedLookahead
