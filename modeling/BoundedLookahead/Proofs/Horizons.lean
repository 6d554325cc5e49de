import BoundedLookahead.Proofs.Directives
import BoundedLookahead.Proofs.ResolvedNodes
import BoundedLookahead.Proofs.Safety

/-!
# How far decisions look

A decision compares the upcoming tokens with words of first sets that were found at
its depth or at smaller ones, so what comes beyond its depth is without effect: on
the answer, on the predicates that are asked for, and on their order.

Predicates may answer in any way, also with effects. So decisions are evaluated with
answers in a monad as well; the evaluation with fixed answers is the one that notes
down what it asks.
-/

namespace BoundedLookahead

section

variable {m : Type → Type} [Monad m] {upcoming : List Token} {holds : String → Bool}
  {asked : List String}

/-- Whether the guard lets the tokens pass, with predicates answered in a monad. -/
def Guard.admitsM (guard : Guard) (own : FirstSet) (upcoming : List Token)
    (answer : String → m Bool) : m Bool :=
  if guard.passes own upcoming then
    match guard.predicate with
    | some predicate => answer predicate
    | none => pure true
  else pure false

/-- Whether the tokens select the alternative, with predicates answered in a monad. -/
def ChoiceEntry.admitsM (entry : ChoiceEntry) (upcoming : List Token) (answer : String → m Bool) :
    m Bool :=
  match entry.guard with
  | some guard => guard.admitsM entry.lookahead upcoming answer
  | none => pure (entry.isDefault || entry.lookahead.accepts upcoming)

/-- The first of the entries that lets the tokens pass, with predicates answered in a
monad. -/
def ChoiceDecision.selectFromM (upcoming : List Token) (answer : String → m Bool) :
    List ChoiceEntry → m (Option Nat)
  | [] => pure none
  | entry :: entries => do
    if ← entry.admitsM upcoming answer then return some entry.alternative
    ChoiceDecision.selectFromM upcoming answer entries

/-- The alternative to take, with predicates answered in a monad. -/
def ChoiceDecision.selectM (decision : ChoiceDecision) (upcoming : List Token)
    (answer : String → m Bool) : m (Option Nat) :=
  selectFromM upcoming answer decision.entries

/-- Whether to enter the body, with predicates answered in a monad. -/
def LoopDecision.entersM (decision : LoopDecision) (upcoming : List Token)
    (answer : String → m Bool) : m Bool :=
  match decision.guard with
  | some guard => guard.admitsM decision.lookahead upcoming answer
  | none => pure (decision.lookahead.accepts upcoming)

/-- Fixed answers that note down what they are asked. -/
def noting (holds : String → Bool) (predicate : String) : StateM (List String) Bool :=
  fun asked => (holds predicate, asked ++ [predicate])

/-- What is known is not asked for. -/
theorem pure_noting {α : Type} (value : α) :
    (pure value : StateM (List String) α) asked = (value, asked) := rfl

/-- With fixed answers a guard asks what its verdict says. -/
theorem Guard.admitsM_noting (guard : Guard) (own : FirstSet) :
    guard.admitsM own upcoming (noting holds) asked =
      ((guard.admits own upcoming holds).value, asked ++ (guard.admits own upcoming holds).asked) := by
  unfold admitsM admits
  split
  · cases guard.predicate with
    | none => simp [pure_noting]
    | some predicate => rfl
  · simp [pure_noting]

/-- With fixed answers an entry asks what its verdict says. -/
theorem ChoiceEntry.admitsM_noting (entry : ChoiceEntry) :
    entry.admitsM upcoming (noting holds) asked =
      ((entry.admits upcoming holds).value, asked ++ (entry.admits upcoming holds).asked) := by
  unfold admitsM admits
  cases entry.guard with
  | none => simp [pure_noting]
  | some guard => exact guard.admitsM_noting entry.lookahead

/-- With fixed answers a choice selects and asks what its verdict says. -/
theorem ChoiceDecision.selectM_noting (decision : ChoiceDecision) :
    decision.selectM upcoming (noting holds) asked =
      ((decision.selectWith upcoming holds).value,
        asked ++ (decision.selectWith upcoming holds).asked) := by
  unfold selectM selectWith
  induction decision.entries generalizing asked with
  | nil => simp [selectFromM, selectFrom, pure_noting]
  | cons entry entries ih =>
    have first : entry.admitsM upcoming (noting holds) asked = _ := entry.admitsM_noting
    have step : selectFromM upcoming (noting holds) (entry :: entries) asked =
        if (entry.admits upcoming holds).value then
          (some entry.alternative, asked ++ (entry.admits upcoming holds).asked)
        else selectFromM upcoming (noting holds) entries
          (asked ++ (entry.admits upcoming holds).asked) := by
      simp only [selectFromM, bind, StateT.bind, first]
      split <;> rfl
    rw [step, ih, selectFrom]
    split
    · rfl
    · rw [List.append_assoc]

/-- With fixed answers a repetition answers and asks what its verdict says. -/
theorem LoopDecision.entersM_noting (decision : LoopDecision) :
    decision.entersM upcoming (noting holds) asked =
      ((decision.entersWith upcoming holds).value,
        asked ++ (decision.entersWith upcoming holds).asked) := by
  unfold entersM entersWith
  cases decision.guard with
  | none => simp [pure_noting]
  | some guard => exact guard.admitsM_noting decision.lookahead

end

/-- Tokens beyond the bound of a set are not looked at. -/
theorem FirstSet.Bounded.accepts_take {set : FirstSet} {k : Nat} (h : set.Bounded k)
    (upcoming : List Token) : set.accepts (upcoming.take k) = set.accepts upcoming := by
  rw [Bool.eq_iff_iff, FirstSet.accepts_iff, FirstSet.accepts_iff]
  constructor
  · rintro ⟨word, hm, hp⟩
    exact ⟨word, hm, (List.prefix_take_iff.mp hp).1⟩
  · rintro ⟨word, hm, hp⟩
    exact ⟨word, hm, List.prefix_take_iff.mpr ⟨hp, (h word hm).2⟩⟩

/-- The words that a test with its own set and a guard compares with the tokens have at
most `k` tokens. -/
structure LooksWithin (k : Nat) (own : FirstSet) (guard : Option Guard) : Prop where
  /-- The computed set is bounded. -/
  computed : own.Bounded k
  /-- The set of the syntactic guard is bounded. -/
  syntactic : ∀ found ∈ guard, ∀ node set, found.syntactic = some (node, set) → set.Bounded k

namespace LooksWithin

variable {j k : Nat} {own : FirstSet}

/-- A larger bound does as well. -/
theorem mono {guard : Option Guard} (h : LooksWithin j own guard) (hjk : j ≤ k) :
    LooksWithin k own guard := by
  have larger {set : FirstSet} (hb : set.Bounded j) : set.Bounded k := fun word hm =>
    ⟨(hb word hm).1, Nat.le_trans (hb word hm).2 hjk⟩
  exact ⟨larger h.computed, fun found hf node set hs => larger (h.syntactic found hf node set hs)⟩

/-- The comparison of a guard does not look at tokens beyond the bound. -/
theorem passes_take {guard : Guard} (h : LooksWithin k own (some guard)) (upcoming : List Token) :
    guard.passes own (upcoming.take k) = guard.passes own upcoming := by
  unfold Guard.passes
  cases hs : guard.scanned? own with
  | none => rfl
  | some set =>
    have bounded : set.Bounded k := by
      unfold Guard.scanned? at hs
      split at hs
      · next node other he =>
        cases hs
        exact h.syntactic guard rfl node _ he
      · split at hs <;> cases hs
        exact h.computed
    simp only [bounded.accepts_take]

end LooksWithin

section

variable {m : Type → Type} [Monad m] {k : Nat} (upcoming : List Token)

/-- An entry does not look at tokens beyond the bound of its sets. -/
theorem ChoiceEntry.admitsM_take {entry : ChoiceEntry}
    (h : LooksWithin k entry.lookahead entry.guard) (answer : String → m Bool) :
    entry.admitsM (upcoming.take k) answer = entry.admitsM upcoming answer := by
  unfold admitsM
  cases hg : entry.guard with
  | none => simp only [h.computed.accepts_take]
  | some guard =>
    rw [hg] at h
    simp only [Guard.admitsM, h.passes_take]

/-- A choice does not look at tokens beyond the bound of the sets of its entries. -/
theorem ChoiceDecision.selectM_take {decision : ChoiceDecision}
    (h : ∀ entry ∈ decision.entries, LooksWithin k entry.lookahead entry.guard)
    (answer : String → m Bool) :
    decision.selectM (upcoming.take k) answer = decision.selectM upcoming answer := by
  unfold selectM
  generalize decision.entries = entries at h
  induction entries with
  | nil => rfl
  | cons entry entries ih =>
    rw [List.forall_mem_cons] at h
    have first := entry.admitsM_take upcoming h.1 answer
    have later := ih h.2
    simp only [selectFromM, first, later]

/-- A repetition does not look at tokens beyond the bound of its sets. -/
theorem LoopDecision.entersM_take {decision : LoopDecision}
    (h : LooksWithin k decision.lookahead decision.guard) (answer : String → m Bool) :
    decision.entersM (upcoming.take k) answer = decision.entersM upcoming answer := by
  unfold entersM
  cases hg : decision.guard with
  | none => simp only [h.computed.accepts_take]
  | some guard =>
    rw [hg] at h
    simp only [Guard.admitsM, h.passes_take]

end

section

variable {upcoming other : List Token}

/-- A verdict is its answer and the predicates that were asked for. -/
theorem Verdict.eq_of_parts {α : Type} {a b : Verdict α} (value : a.value = b.value)
    (asked : a.asked = b.asked) : a = b := by
  cases a
  cases b
  simp_all

/-- Choices and tokens between which no answers in a monad make a difference are treated
alike with fixed answers. -/
theorem ChoiceDecision.selectWith_congr {decision changed : ChoiceDecision}
    (holds : String → Bool) (h : ∀ answer : String → StateM (List String) Bool,
      decision.selectM upcoming answer = changed.selectM other answer) :
    decision.selectWith upcoming holds = changed.selectWith other holds := by
  have noted := congrFun (h (noting holds)) []
  rw [selectM_noting, selectM_noting, List.nil_append, List.nil_append] at noted
  have parts := Prod.mk.inj noted
  exact Verdict.eq_of_parts parts.1 parts.2

/-- The same of repetitions. -/
theorem LoopDecision.entersWith_congr {decision : LoopDecision} (holds : String → Bool)
    (h : ∀ answer : String → StateM (List String) Bool,
      decision.entersM upcoming answer = decision.entersM other answer) :
    decision.entersWith upcoming holds = decision.entersWith other holds := by
  have noted := congrFun (h (noting holds)) []
  rw [entersM_noting, entersM_noting, List.nil_append, List.nil_append] at noted
  have parts := Prod.mk.inj noted
  exact Verdict.eq_of_parts parts.1 parts.2

end

namespace Registry

variable {σ : Type} {registry : Registry} {limit : Nat} {scope : Scope}

/-- A test with the first set of a node and the guard of a directive looks no further
than the depth that the directive gives. -/
theorem Gives.looksWithin
    (grounded : ∀ production ∈ registry.productions, registry.Grounded production.root)
    (hs : 0 < scope.lookahead) {directive : Option (Directive Tree)} {depth : Nat}
    {guard : Option Guard} (gives : registry.Gives limit scope directive depth guard)
    (below : ∀ given, directive = some given → ∀ tree, given.guard = some tree →
      tree.Within registry.Grounded)
    {tree : Tree} (inside : tree.Within registry.Grounded) {own : FirstSet}
    (first : registry.firstOf limit tree.id depth = .ok own) : LooksWithin depth own guard := by
  have positive : 1 ≤ depth := gives.depth_eq ▸ Scope.depthOf_pos hs
  refine ⟨(inside.root.mem_firstOf positive grounded first).1, fun found hf node set hsyn => ?_⟩
  obtain ⟨given, hd, expansion, he, rfl, hset⟩ := gives.syntactic_eq found hf node set hsyn
  exact ((below given hd expansion he).root.mem_firstOf positive grounded hset).1

/-- No entry of a choice looks further than the choice. -/
theorem depth_le_of_choicePoint {id : NodeId} {location : Location} {alternatives : List Tree}
    {point : Point} {decision : ChoiceDecision}
    (h : (registry.oracle limit).choicePoint scope id location alternatives = .ok point)
    (hd : point.decision = .choice decision) :
    ∀ entry ∈ decision.entries, entry.depth ≤ decision.depth := by
  obtain ⟨⟨entries, warnings⟩, _, h⟩ := bind_eq_ok.mp h
  obtain ⟨conflicts, _, h⟩ := bind_eq_ok.mp h
  cases h
  cases hd
  exact fun entry hm => List.le_max?_getD_of_mem (List.mem_map_of_mem hm)

/-- The sets that a resolved node compares with the tokens are bounded by its depth. -/
theorem Decides.looksWithin
    (grounded : ∀ production ∈ registry.productions, registry.Grounded production.root)
    (hs : 0 < scope.lookahead) {tree : Tree} (inside : tree.Within registry.Grounded)
    {point : Point} (h : registry.Decides limit scope tree point) :
    (∀ decision, point.decision = .choice decision → ∀ entry ∈ decision.entries,
      LooksWithin decision.depth entry.lookahead entry.guard) ∧
    ∀ decision, point.decision = .loop decision →
      LooksWithin decision.depth decision.lookahead decision.guard := by
  have children {child : Tree} (hc : child ∈ tree.children) : child.Within registry.Grounded :=
    inside.child hc
  cases h with
  | @choice id location alternatives point h =>
    refine ⟨fun decision hd entry hm => ?_, fun decision hd => ?_⟩
    · have deepest := depth_le_of_choicePoint h hd entry hm
      obtain ⟨entries, warnings, conflicts, depth, he, _, rfl⟩ := choicePoint_eq_ok h
      cases hd
      obtain ⟨alternative, ha, tests⟩ := exists_tests he hm
      have within := (gives_of_guard tests.guard).looksWithin grounded hs
        (fun given hg tree ht => (children ha).leading hg ht) (children ha) tests.first
      exact within.mono deepest
    · obtain ⟨_, _, _, _, _, _, rfl⟩ := choicePoint_eq_ok h
      cases hd
  | @repetition id location kind body guard point follow h =>
    obtain ⟨depth, found, set, warnings, hg, hset, rfl⟩ := loopPoint_eq_ok h
    refine ⟨fun decision hd => (by cases hd), fun decision hd => ?_⟩
    cases hd
    have hb : body.Within registry.Grounded :=
      children (by simp [Tree.children, Expansion.children])
    have explicit : ∀ tree ∈ guard, tree.Within registry.Grounded := by
      intro tree ht
      obtain rfl := Option.mem_def.mp ht
      exact children (by simp [Tree.children, Expansion.children])
    exact (gives_of_guard hg).looksWithin grounded hs
      (fun given hd tree ht => hb.loopGuard explicit hd ht) hb hset

/-- The sets that a decision of an analysis compares with the tokens are bounded by the
depth of the decision. -/
theorem looksWithin_of_analyze {options : Options} {state : σ} {analysis : Analysis}
    (analyzed : (registry.analyze options state).result = .ok analysis) (id : NodeId) :
    (∀ decision, analysis.decisions.choice? id = some decision → ∀ entry ∈ decision.entries,
      LooksWithin decision.depth entry.lookahead entry.guard) ∧
    ∀ decision, analysis.decisions.loop? id = some decision →
      LooksWithin decision.depth decision.lookahead decision.guard := by
  obtain ⟨hc, ⟨final, ho⟩, report, hr, ⟨_, points, hp, rfl⟩ | ⟨_, rfl⟩⟩ := analyze_eq_ok analyzed
  swap
  · refine ⟨fun decision decided => ?_, fun decision decided => ?_⟩
    · cases decided
    · cases decided
  have grounded := grounded_production ho
  have resolved {point : Point} (hm : point ∈ points) :
      (∀ decision, point.decision = .choice decision → ∀ entry ∈ decision.entries,
        LooksWithin decision.depth entry.lookahead entry.guard) ∧
      ∀ decision, point.decision = .loop decision →
        LooksWithin decision.depth decision.lookahead decision.guard := by
    obtain ⟨rule, hrule, _, below, hb, decides⟩ := exists_rule_decides hp hm
    obtain ⟨production, hprod, rfl⟩ := List.mem_map.mp hrule
    obtain ⟨node, reached, rfl⟩ := (grounded production hprod).mem_subtrees.mp hb
    have inside := ((grounded production hprod).of_reaches reached).within
    exact decides.looksWithin grounded (Options.check_eq_ok_iff.mp hc).1 inside
  refine ⟨fun decision decided => ?_, fun decision decided => ?_⟩
  · obtain ⟨point, hm, _, hd⟩ := exists_point decided
    exact (resolved hm).1 decision hd
  · obtain ⟨point, hm, _, hd⟩ := exists_loop_point decided
    exact (resolved hm).2 decision hd

/-- A decision of an analysis never looks further than its depth. Tokens beyond it
change neither the alternative nor the predicates that are asked for, nor their order,
in whatever way predicates are answered; and the same holds of entering a body. -/
theorem decisions_look_within {options : Options} {state : σ} {analysis : Analysis}
    (analyzed : (registry.analyze options state).result = .ok analysis) (id : NodeId)
    (upcoming : List Token) :
    (∀ decision, analysis.decisions.choice? id = some decision →
      (∀ (m : Type → Type) [Monad m] (answer : String → m Bool),
        decision.selectM upcoming answer =
          decision.selectM (upcoming.take decision.depth) answer) ∧
      ∀ holds, decision.selectWith upcoming holds =
        decision.selectWith (upcoming.take decision.depth) holds) ∧
    ∀ decision, analysis.decisions.loop? id = some decision →
      (∀ (m : Type → Type) [Monad m] (answer : String → m Bool),
        decision.entersM upcoming answer =
          decision.entersM (upcoming.take decision.depth) answer) ∧
      ∀ holds, decision.entersWith upcoming holds =
        decision.entersWith (upcoming.take decision.depth) holds := by
  have bounded := looksWithin_of_analyze analyzed id
  refine ⟨fun decision decided => ?_, fun decision decided => ?_⟩
  · have same (m : Type → Type) [Monad m] (answer : String → m Bool) :=
      (ChoiceDecision.selectM_take upcoming (bounded.1 decision decided) answer).symm
    exact ⟨same, fun holds => ChoiceDecision.selectWith_congr holds (same _)⟩
  · have same (m : Type → Type) [Monad m] (answer : String → m Bool) :=
      (LoopDecision.entersM_take upcoming (bounded.2 decision decided) answer).symm
    exact ⟨same, fun holds => LoopDecision.entersWith_congr holds (same _)⟩

/-- The grammar `S -> (LOOKAHEAD(2, {ready}) a b | a)*`. -/
def guardedPair : Registry where
  nodes := #[⟨.lookahead { amount := some 2, predicate := some "ready" }, {}⟩, ⟨.terminal "a", {}⟩,
    ⟨.terminal "b", {}⟩, ⟨.sequence [0, 1, 2], {}⟩, ⟨.terminal "a", {}⟩, ⟨.choice [3, 4], {}⟩,
    ⟨.repetition .zeroOrMore 5 none, {}⟩]
  productions := [{ name := "S", root := 6 }]
  tokens := ["a", "b"]

/-- The choice of that grammar looks at two tokens and its repetition at one. -/
theorem looks_within_guardedPair : ∃ analysis choice loop,
    (guardedPair.analyze {} ()).result = .ok analysis ∧
      analysis.decisions.choice? 5 = some choice ∧ analysis.decisions.loop? 6 = some loop ∧
      (∀ holds, choice.selectWith ["a", "b", "a"] holds = choice.selectWith ["a", "b"] holds) ∧
      ∀ holds, loop.entersWith ["a", "b", "a"] holds = loop.entersWith ["a"] holds := by
  have computed : ((guardedPair.analyze {} ()).result.toOption.bind fun analysis =>
      (analysis.decisions.choice? 5).bind fun choice =>
        (analysis.decisions.loop? 6).map fun loop => (choice.depth, loop.depth)) = some (2, 1) := by
    decide +kernel
  obtain ⟨analysis, ha, found⟩ := Option.bind_eq_some_iff.mp computed
  obtain ⟨choice, hchoice, found⟩ := Option.bind_eq_some_iff.mp found
  obtain ⟨loop, hloop, depths⟩ := Option.map_eq_some_iff.mp found
  rw [Prod.mk.injEq] at depths
  have analyzed := toOption_eq_some.mp ha
  have choices := (decisions_look_within analyzed 5 ["a", "b", "a"]).1 choice hchoice
  have loops := (decisions_look_within analyzed 6 ["a", "b", "a"]).2 loop hloop
  rw [depths.1] at choices
  rw [depths.2] at loops
  exact ⟨analysis, choice, loop, analyzed, hchoice, hloop, choices.2, loops.2⟩

end Registry

end BoundedLookahead
