import BoundedLookahead.Proofs.Lockstep

/-!
# What a part inherits

In a production of a part the same is found as in the whole, its status is the same,
and its decisions are made alike. Nothing but the nullability of the nodes, the calls
and the first sets gets from the grammar into the walks over a tree, and these follow
from the part alone.
-/

namespace BoundedLookahead

namespace Oracle

variable {m : Type → Type} [Monad m] (oracle : Oracle m) {scope : Scope} {depth : Nat}
  {names : List String}

/-- The guard of a decision depends neither on how far a walk keeps what follows nor on what is
nullable. -/
theorem guard_scope (directive : Option (Directive Tree)) :
    oracle.guard { scope with followDepth := depth, nullable := names } directive =
      oracle.guard scope directive := by
  cases directive <;> rfl

/-- The entries of a choice depend on what is nullable among its alternatives. -/
theorem entries_scope {alternatives : List Tree}
    (same : ∀ tree ∈ alternatives, tree.nullable names = tree.nullable scope.nullable)
    (index : Nat) (fallback : Option Nat) :
    oracle.entries { scope with followDepth := depth, nullable := names } index fallback alternatives =
      oracle.entries scope index fallback alternatives := by
  induction alternatives generalizing index fallback with
  | nil => rfl
  | cons alternative alternatives ih =>
    rw [List.forall_mem_cons] at same
    have check (guard : Option Guard) (set : FirstSet) :
        oracle.checkGuard { scope with followDepth := depth, nullable := names } alternative index
            guard set =
          oracle.checkGuard scope alternative index guard set := by
      simp only [checkGuard, same.1]
      rfl
    simp only [entries, guard_scope, check, ih same.2]
    rfl

/-- The comparisons of alternatives depend on neither. -/
theorem ambiguities_scope (location : Location) (entries : List ChoiceEntry) :
    oracle.ambiguities { scope with followDepth := depth, nullable := names } location entries =
      oracle.ambiguities scope location entries := by
  have row (a : ChoiceEntry) (later : List ChoiceEntry) :
      oracle.ambiguitiesWith { scope with followDepth := depth, nullable := names } location a later =
        oracle.ambiguitiesWith scope location a later := by
    induction later with
    | nil => rfl
    | cons b later ih => simp only [ambiguitiesWith, ih]; rfl
  induction entries with
  | nil => rfl
  | cons a later ih => simp only [ambiguities, row, ih]

/-- A choice is decided by what is nullable among its alternatives, however far a walk keeps what
follows. -/
theorem choicePoint_scope (id : NodeId) (location : Location) {alternatives : List Tree}
    (same : ∀ tree ∈ alternatives, tree.nullable names = tree.nullable scope.nullable) :
    oracle.choicePoint { scope with followDepth := depth, nullable := names } id location alternatives =
      oracle.choicePoint scope id location alternatives := by
  simp only [choicePoint, entries_scope oracle same, ambiguities_scope]

/-- What follows units does not depend on what is nullable. -/
theorem unitFollows_nullable (follow : FirstSet) (units : List Tree) :
    oracle.unitFollows { scope with nullable := names } follow units =
      oracle.unitFollows scope follow units := by
  induction units with
  | nil => rfl
  | cons unit units ih => simp only [unitFollows, ih]

/-- The decisions of a tree depend on what is nullable in it. -/
theorem visit_nullable {tree : Tree}
    (same : ∀ inner ∈ tree.subtrees, inner.nullable names = inner.nullable scope.nullable)
    (follow : FirstSet) : oracle.visit { scope with nullable := names } follow tree =
      oracle.visit scope follow tree := by
  induction tree using Tree.induction generalizing follow with
  | stray id => rfl
  | node id location expansion ih =>
    have child (tree : Tree) (hm : tree ∈ expansion.children) (follow : FirstSet) :
        oracle.visit { scope with nullable := names } follow tree = oracle.visit scope follow tree :=
      ih tree hm (fun inner hi => same inner (Tree.mem_subtrees_of_child hm hi)) follow
    have loop (kind : RepetitionKind) (body : Tree) (guard : Option Tree) (follow : FirstSet) :
        oracle.loopPoint { scope with nullable := names } id location kind body guard follow =
          oracle.loopPoint scope id location kind body guard follow := by
      simp only [loopPoint, guard_scope]
      rfl
    cases expansion with
    | sequence units =>
      have row (follows : List FirstSet) (trees : List Tree) (hm : trees ⊆ units) :
          oracle.visitUnits { scope with nullable := names } follows trees =
            oracle.visitUnits scope follows trees := by
        induction trees generalizing follows with
        | nil => rfl
        | cons tree trees iht =>
          rw [List.cons_subset] at hm
          simp only [visitUnits, child tree hm.1, iht _ hm.2]
      simp only [visit, unitFollows_nullable, row _ units (List.Subset.refl _)]
    | choice alternatives =>
      have row (trees : List Tree) (hm : trees ⊆ alternatives) :
          oracle.visitAlternatives { scope with nullable := names } follow trees =
            oracle.visitAlternatives scope follow trees := by
        induction trees with
        | nil => rfl
        | cons tree trees iht =>
          rw [List.cons_subset] at hm
          simp only [visitAlternatives, child tree hm.1, iht hm.2]
      have roots (tree : Tree) (hm : tree ∈ alternatives) :
          tree.nullable names = tree.nullable scope.nullable :=
        same tree (Tree.mem_subtrees_of_child hm tree.mem_subtrees_self)
      simp only [visit, choicePoint_scope oracle id location roots, row alternatives (List.Subset.refl _)]
    | repetition kind body guard =>
      have hb := child body (by simp [Expansion.children])
      cases guard with
      | none =>
        simp only [visit, loop, hb]
        rfl
      | some guard =>
        have hg := child guard (by simp [Expansion.children])
        simp only [visit, loop, hb, hg]
        rfl
    | lookahead directive =>
      obtain ⟨amount, predicate, _ | guard⟩ := directive
      · rfl
      · exact child guard (by simp [Expansion.children]) _
    | tryBlock body handlers cleanup => exact child body (by simp [Expansion.children]) _
    | _ => rfl

end Oracle

namespace Registry

/-- The rule of a production: the production with the tree of its root. -/
def ruleOf (registry : Registry) (production : Production) : Rule :=
  ⟨production, registry.tree production.root⟩

/-- What was found in the tree of a rule. -/
def findingsOf (registry : Registry) (options : Options) (nullable : List String) (rule : Rule) :
    Except AnalysisError (Production × List Finding) := do
  let findings ← (rule.tree.observations registry options nullable .plain).mapM
    Observation.toFinding
  return (rule.production, findings)

/-- The resolved nodes of a rule. A blocked one has none. -/
def pointsOf (registry : Registry) (report : Report) (options : Options) (rule : Rule) :
    Except AnalysisError (List Point) :=
  if report.isBlocked rule.name then .ok []
  else (registry.oracle options.expansionLimit).visit
    (options.scope report.nullable rule.name rule.tree) FirstSet.epsilon rule.tree

section

variable {registry : Registry} {report : Report} {options : Options} {rule : Rule}

/-- A blocked rule has no resolved nodes. -/
theorem pointsOf_blocked (h : report.isBlocked rule.name = true) :
    registry.pointsOf report options rule = .ok [] := if_pos h

/-- The resolved nodes of another rule are those of the walk over its tree. -/
theorem pointsOf_unblocked (h : report.isBlocked rule.name = false) :
    registry.pointsOf report options rule = (registry.oracle options.expansionLimit).visit
      (options.scope report.nullable rule.name rule.tree) FirstSet.epsilon rule.tree :=
  if_neg (by simp [h])

end

section

variable {α : Type} {registry : Registry} {report : Report} {options : Options}

/-- What is found rule by rule is found production by production. -/
theorem mapM_rules (found : Rule → Except AnalysisError α) :
    registry.rules.mapM found = registry.productions.mapM fun production =>
      found (registry.ruleOf production) :=
  List.mapM_map

/-- The findings are collected production by production. -/
theorem foundIn_eq (names : List String) : registry.foundIn options names =
    registry.productions.mapM fun production =>
      registry.findingsOf options names (registry.ruleOf production) :=
  mapM_rules _

/-- The resolved nodes are collected production by production. -/
theorem points_eq : registry.points report options =
    (registry.productions.mapM fun production =>
      registry.pointsOf report options (registry.ruleOf production)).map List.flatten := by
  rw [← mapM_rules, points]
  induction registry.rules with
  | nil => rfl
  | cons rule rules ih =>
    have step : (registry.oracle options.expansionLimit).resolveRules report options report.nullable
        (rule :: rules) = (registry.pointsOf report options rule >>= fun points =>
          (registry.oracle options.expansionLimit).resolveRules report options report.nullable rules >>=
            fun others => .ok (points ++ others)) := by
      simp only [Oracle.resolveRules, pointsOf]
      split <;> rfl
    rw [step, ih, List.mapM_cons]
    cases registry.pointsOf report options rule with
    | error cause => rfl
    | ok points => cases rules.mapM (registry.pointsOf report options) <;> rfl

/-- The resolved nodes of all productions are those of each. -/
theorem points_eq_ok {points : List Point} : registry.points report options = .ok points ↔
    ∃ parts, (registry.productions.mapM fun production =>
      registry.pointsOf report options (registry.ruleOf production)) = .ok parts ∧
      points = parts.flatten := by
  rw [points_eq]
  cases registry.productions.mapM fun production =>
      registry.pointsOf report options (registry.ruleOf production) with
  | error cause => simp [Except.map]
  | ok parts => simp [Except.map, eq_comm]

end

namespace PartOf

variable {part whole : Registry} (h : part.PartOf whole)
  (hw : ∀ production ∈ whole.productions, whole.Grounded production.root)
  {names names' : List String} (hn : part.nullableNames = .ok names)
  (hn' : whole.nullableNames = .ok names') {options : Options} {production : Production}

include h

/-- The status of a production follows from what was found in it, as in the whole. -/
theorem statusOf_eq : part.statusOf = whole.statusOf := by
  funext production findings
  simp only [statusOf, h.duplicates]

include hw hn hn'

/-- In a production of the part the same is found as in the whole. -/
theorem findingsOf_eq (hp : production ∈ part.productions) :
    part.findingsOf options names (part.ruleOf production) =
      whole.findingsOf options names' (whole.ruleOf production) := by
  have hg := h.grounded hw production hp
  have same : (part.tree production.root).observations part options names .plain =
      (part.tree production.root).observations whole options names' .plain := by
    refine observations_congr rfl h.tokens (fun inner hi => ?_) .plain
    obtain ⟨id, reached, rfl⟩ := hg.mem_subtrees.mp hi
    have inside : part.InDefinition id := ⟨production, List.mem_append_left _ hp, reached⟩
    refine ⟨h.nullable_eq hw hn hn' inside (hg.of_reaches reached), fun name args he => ?_⟩
    obtain ⟨expansion, hx, _⟩ := (hg.of_reaches reached).exists_expansion
    obtain ⟨location, ht⟩ := (hg.of_reaches reached).exists_tree_eq hx
    rw [ht] at he
    cases expansion with
    | nonTerminal name args =>
      cases he
      exact h.agrees.calls id _ _ inside hx
    | _ => cases he
  unfold findingsOf ruleOf
  dsimp only
  rw [same, h.tree_root hw hp]

/-- The decisions of a production of the part follow those of the whole, also where the
part is given a greater limit. -/
theorem pointsOf {limit : Nat} (hl : options.expansionLimit ≤ limit)
    (hp : production ∈ part.productions) {report report' : Report} (known : report.nullable = names)
    (known' : report'.nullable = names')
    (blocked : report.isBlocked production.name = report'.isBlocked production.name) :
    (widening options.expansionLimit).relates
      (part.pointsOf report { options with expansionLimit := limit } (part.ruleOf production))
      (whole.pointsOf report' options (whole.ruleOf production)) := by
  subst known known'
  have hg := h.grounded hw production hp
  have same : ∀ inner ∈ (part.tree production.root).subtrees,
      inner.nullable report.nullable = inner.nullable report'.nullable := by
    intro inner hi
    obtain ⟨id, reached, rfl⟩ := hg.mem_subtrees.mp hi
    exact h.nullable_eq hw hn hn' ⟨production, List.mem_append_left _ hp, reached⟩
      (hg.of_reaches reached)
  have walk : (part.oracle limit).visit
      (options.scope report.nullable production.name (part.tree production.root)) FirstSet.epsilon
      (part.tree production.root) = (part.oracle limit).visit
      (options.scope report'.nullable production.name (part.tree production.root)) FirstSet.epsilon
      (part.tree production.root) :=
    @Oracle.visit_nullable _ _ (part.oracle limit)
      (options.scope report'.nullable production.name (part.tree production.root)) _ _ same _
  rw [ruleOf, ruleOf, ← h.tree_root hw hp]
  cases hb : report'.isBlocked production.name with
  | true =>
    rw [pointsOf_blocked (blocked.trans hb), pointsOf_blocked hb]
    exact (widening options.expansionLimit).pure []
  | false =>
    rw [pointsOf_unblocked (blocked.trans hb), pointsOf_unblocked hb]
    change (widening options.expansionLimit).relates ((part.oracle limit).visit
      (options.scope report.nullable production.name (part.tree production.root)) _ _) _
    rw [walk]
    exact (h.simulates hl hw).visit (h.within_root hw hp) FirstSet.epsilon

/-- What was found in the part is what was found in its productions in the whole. -/
theorem foundIn_eq : part.foundIn options names = part.productions.mapM fun production =>
    whole.findingsOf options names' (whole.ruleOf production) :=
  (Registry.foundIn_eq names).trans (mapM_congr fun _ hp => h.findingsOf_eq hw hn hn' hp)

/-- Where its productions have resolved nodes in the whole, the part has the same. -/
theorem points_eq_ok {report report' : Report} (known : report.nullable = names)
    (known' : report'.nullable = names')
    (blocked : ∀ production ∈ part.productions,
      report.isBlocked production.name = report'.isBlocked production.name) {parts : List (List Point)}
    (hp : (part.productions.mapM fun production =>
      whole.pointsOf report' options (whole.ruleOf production)) = .ok parts) :
    part.points report options = .ok parts.flatten := by
  refine Registry.points_eq_ok.mpr ⟨parts, ?_, rfl⟩
  refine ((widening options.expansionLimit).mapM fun production hm => ?_).1 parts hp
  exact h.pointsOf hw hn hn' (Nat.le_refl _) hm known known' (blocked production hm)

end PartOf

end Registry

end BoundedLookahead
