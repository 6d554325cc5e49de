import BoundedLookahead.Proofs.Emptied

/-!
# Walks past an emptied directive

With an empty sequence in the place of a directive that gives an amount and nothing else,
validation comes across the same, but for what it says about the directive. The resolver
goes the same way too, unless the directive leads a child of a choice or of a repetition:
elsewhere no decision asks for it, and it has the first set of an empty sequence.
-/

namespace BoundedLookahead

/-- The observation is a finding about the node. -/
def Observation.isAt (id : NodeId) : Observation → Bool
  | .finding found => found.node == id
  | .stray _ => false

/-- The directive with the id of its guard in place of the guard. -/
def Directive.byId (directive : Directive Tree) : Directive NodeId :=
  ⟨directive.amount, directive.predicate, directive.guard.map Tree.id⟩

/-- As alternatives of a choice the trees are decided alike. -/
structure Tree.Alike (names : List String) (tree other : Tree) : Prop where
  /-- They bear one id. -/
  id : tree.id = other.id
  /-- They were written in one place. -/
  location : tree.location = other.location
  /-- Both can match the empty word, or neither can. -/
  nullable : tree.nullable names = other.nullable names
  /-- The directives that lead them say the same. -/
  directive : tree.leadingDirective?.map Directive.byId = other.leadingDirective?.map Directive.byId

namespace Oracle

variable {m : Type → Type} [Monad m] (oracle : Oracle m) {scope : Scope}

/-- A directive gives a decision what it says, with the id of its guard. -/
theorem guard_congr {directive other : Option (Directive Tree)}
    (same : directive.map Directive.byId = other.map Directive.byId) :
    oracle.guard scope directive = oracle.guard scope other := by
  cases directive with
  | none => rw [Option.map_eq_none_iff.mp same.symm]
  | some directive =>
    obtain ⟨other, rfl, equal⟩ := Option.map_eq_some_iff.mp same.symm
    obtain ⟨amount, predicate, guard⟩ := directive
    obtain ⟨amount', predicate', guard'⟩ := other
    obtain ⟨rfl, rfl, ids⟩ : amount' = amount ∧ predicate' = predicate ∧
        guard'.map Tree.id = guard.map Tree.id := by
      simpa [Directive.byId] using equal
    cases guard with
    | none => rw [Option.map_eq_none_iff.mp ids]
    | some guard =>
      obtain ⟨guard', rfl, named⟩ := Option.map_eq_some_iff.mp ids
      simp only [Oracle.guard, named]

/-- Alternatives that are decided alike have the same entries. -/
theorem entries_congr {alternatives others : List Tree}
    (alike : List.Forall₂ (Tree.Alike scope.nullable) alternatives others) (index : Nat)
    (fallback : Option Nat) : oracle.entries scope index fallback alternatives =
      oracle.entries scope index fallback others := by
  induction alike generalizing index fallback with
  | nil => rfl
  | @cons alternative other _ _ first _ ih =>
    have check (guard : Option Guard) (set : FirstSet) :
        oracle.checkGuard scope alternative index guard set =
          oracle.checkGuard scope other index guard set := by
      simp only [checkGuard, first.nullable, first.location]
    simp only [entries, guard_congr oracle first.directive, first.id, first.location, check, ih]

/-- What follows units depends on their ids. -/
theorem unitFollows_congr {units others : List Tree}
    (ids : List.Forall₂ (fun unit other => unit.id = other.id) units others) (follow : FirstSet) :
    oracle.unitFollows scope follow units = oracle.unitFollows scope follow others := by
  induction ids with
  | nil => rfl
  | cons first _ ih => simp only [unitFollows, first, ih]

end Oracle

namespace Registry

variable {registry : Registry} {id other : NodeId} {amount : Nat}

namespace IsAmount

variable (h : registry.IsAmount id amount)

include h

/-- All that a walk comes across at the directive is that it is misplaced. -/
theorem observation_at (hg : registry.Grounded other) {options : Options} {names : List String}
    {slot : Slot} {observation : Observation}
    (hm : observation ∈ (registry.tree other).observations registry options names slot)
    (at_node : observation.isAt id = true) : observation = .finding (registry.misplacedAt id) := by
  refine h.twin_induction (motive := fun _ tree _ => ∀ slot,
    observation ∈ tree.observations registry options names slot →
      observation = .finding (registry.misplacedAt id))
    (fun location found slot hm => ?_) (fun parent location expansion other _ _ ih slot hm => ?_) hg slot hm
  · rcases mem_observations_node hm with ⟨problem, rfl, problems⟩ | ⟨child, hc, _⟩
    · have problems := problems _ rfl
      have located : registry.locationOf id = location := by simp [locationOf, found]
      obtain rfl : problem = .misplaced := by
        cases slot <;> simp [Options.directiveProblems] at problems
        exact problems
      rw [misplacedAt, located]
    · cases hc
  · rcases mem_observations_node hm with ⟨problem, rfl, _⟩ | ⟨child, hc, slot, found⟩
    · exact absurd (beq_iff_eq.mp at_node) other
    · rw [Expansion.children_map] at hc
      obtain ⟨below, hb, rfl⟩ := List.mem_map.mp hc
      exact ih below hb slot found

/-- A walk comes across the same in both grammars, but for what it says about the directive. -/
theorem observations_emptied (hg : registry.Grounded other) (options : Options)
    (names : List String) (slot : Slot) :
    ((registry.emptied id).tree other).observations (registry.emptied id) options names slot =
      ((registry.tree other).observations registry options names slot).filter fun observation =>
        !observation.isAt id := by
  refine h.twin_induction (motive := fun _ tree twin => ∀ slot,
    twin.observations (registry.emptied id) options names slot =
      (tree.observations registry options names slot).filter fun observation => !observation.isAt id)
    (fun location _ slot => ?_) (fun parent location expansion other hp he ih slot => ?_) hg slot
  · have own (problems : List Problem) : (problems.map fun problem =>
        Observation.finding ⟨id, location, problem⟩).filter (fun observation =>
          !observation.isAt id) = [] := by
      simp [Observation.isAt]
    simp only [Tree.observations, Tree.listObservations, own]
  · have below := hp.of_expansion he
    have kept (problem : Problem) :
        (!(Observation.finding ⟨parent, location, problem⟩).isAt id) = true := by
      simp [Observation.isAt, other]
    have own (problems : List Problem) : (problems.map fun problem =>
        Observation.finding ⟨parent, location, problem⟩).filter (fun observation =>
          !observation.isAt id) = problems.map fun problem => .finding ⟨parent, location, problem⟩ := by
      refine List.filter_eq_self.mpr fun observation hm => ?_
      obtain ⟨problem, _, rfl⟩ := List.mem_map.mp hm
      exact kept problem
    have row (first rest : Slot) (trees : List NodeId) (hs : trees ⊆ expansion.children) :
        Tree.listObservations (registry.emptied id) options names first rest
            (trees.map (registry.emptied id).tree) =
          (Tree.listObservations registry options names first rest
            (trees.map registry.tree)).filter fun observation => !observation.isAt id := by
      induction trees generalizing first with
      | nil => rfl
      | cons tree trees iht =>
        rw [List.cons_subset] at hs
        simp only [List.map_cons, Tree.listObservations, List.filter_append, ih tree hs.1, iht rest hs.2]
    have empty (kind : RepetitionKind) (body : NodeId) (hb : body ∈ expansion.children) :
        (if ((registry.emptied id).tree body).nullable names then
          [Observation.finding ⟨parent, location, .emptyBody kind⟩] else []) =
        (if (registry.tree body).nullable names then
          [Observation.finding ⟨parent, location, .emptyBody kind⟩] else []).filter fun observation =>
            !observation.isAt id := by
      rw [h.nullable_emptied (below body hb)]
      split <;> simp [kept]
    cases expansion with
    | terminal kind =>
      have declared : (registry.emptied id).isDeclared kind = registry.isDeclared kind := rfl
      simp only [Expansion.map, Tree.observations, declared]
      split <;> simp [kept]
    | nonTerminal name args =>
      have called : (registry.emptied id).callProblem? name args.length =
        registry.callProblem? name args.length := rfl
      simp only [Expansion.map, Tree.observations, called, own]
    | sequence units => simp only [Expansion.map, Tree.observations, row _ _ units (List.Subset.refl _)]
    | choice alternatives =>
      simp only [Expansion.map, Tree.observations, row _ _ alternatives (List.Subset.refl _)]
    | repetition kind body guard =>
      have hb : body ∈ (Expansion.repetition kind body guard).children := by simp [Expansion.children]
      cases guard with
      | none =>
        simp only [Expansion.map, Option.map_none, Tree.observations, List.filter_append, ih body hb,
          empty kind body hb]
      | some guard =>
        simp only [Expansion.map, Option.map_some, Tree.observations, List.filter_append, ih body hb,
          ih guard (by simp [Expansion.children]), empty kind body hb]
    | lookahead directive =>
      obtain ⟨amount, predicate, _ | guard⟩ := directive
      · simp only [Expansion.map, Option.map_none, Tree.observations, own]
      · simp only [Expansion.map, Option.map_some, Tree.observations, List.filter_append,
          ih guard (by simp [Expansion.children]), own]
        rfl
    | action code => simp only [Expansion.map, Tree.observations, List.filter_nil]
    | tryBlock body handlers cleanup =>
      simp only [Expansion.map, Tree.observations, ih body (by simp [Expansion.children])]

/-- What leads a node says the same in both grammars, unless it is the directive. -/
theorem leading_emptied (hg : registry.Grounded other) (free : ¬registry.Heads other id) :
    ((registry.emptied id).tree other).leadingDirective?.map Directive.byId =
      (registry.tree other).leadingDirective?.map Directive.byId := by
  refine h.twin_induction (motive := fun other tree twin => ¬registry.Heads other id →
    twin.leadingDirective?.map Directive.byId = tree.leadingDirective?.map Directive.byId)
    (fun _ _ free => absurd .refl free) (fun parent location expansion _ hp he ih free => ?_) hg free
  have below := hp.of_expansion he
  cases expansion with
  | sequence units =>
    cases units with
    | nil => simp only [Expansion.map, List.map_nil, Tree.leadingDirective?]
    | cons first rest =>
      simp only [Expansion.map, List.map_cons, Tree.leadingDirective?]
      exact ih first List.mem_cons_self fun heads => free (heads.head ⟨rest, he⟩)
  | lookahead directive =>
    obtain ⟨amount, predicate, _ | guard⟩ := directive
    · simp only [Expansion.map, Option.map_none, Tree.leadingDirective?]
    · have named := h.id_emptied (below guard (by simp [Expansion.children]))
      simp only [Expansion.map, Option.map_some, Tree.leadingDirective?, Directive.byId, named]
  | _ => simp only [Expansion.map, Tree.leadingDirective?]

/-- An alternative that the directive does not lead is decided alike. -/
theorem alike_emptied (hg : registry.Grounded other) (free : ¬registry.Heads other id)
    (names : List String) : Tree.Alike names ((registry.emptied id).tree other) (registry.tree other) where
  id := h.id_emptied hg
  location := h.location_emptied hg
  nullable := h.nullable_emptied hg names
  directive := h.leading_emptied hg free

/-- The directive of a repetition says the same, unless it is the emptied one. -/
theorem loopDirective_emptied {body : NodeId} {guard : Option NodeId}
    (below : ∀ child ∈ (Expansion.repetition .zeroOrOne body guard).children,
      registry.Grounded child ∧ ¬registry.Heads child id) :
    (loopDirective? ((registry.emptied id).tree body) (guard.map (registry.emptied id).tree)).map
        Directive.byId =
      (loopDirective? (registry.tree body) (guard.map registry.tree)).map Directive.byId := by
  cases guard with
  | none =>
    obtain ⟨hg, free⟩ := below body (by simp [Expansion.children])
    exact h.leading_emptied hg free
  | some guard =>
    obtain ⟨hg, free⟩ := below guard (by simp [Expansion.children])
    have other : guard ≠ id := fun same => free (same ▸ .refl)
    obtain ⟨expansion, he, inner⟩ := hg.exists_expansion
    obtain ⟨location, ht⟩ := hg.exists_tree_eq he
    obtain ⟨location', ht'⟩ :=
      (h.grounded_emptied hg).exists_tree_eq ((expansion?_emptied_of_ne other).trans he)
    rw [Option.map_some, Option.map_some, ht, ht']
    cases expansion with
    | lookahead directive =>
      obtain ⟨amount, predicate, _ | explicit⟩ := directive
      · simp only [Expansion.map, Option.map_none, loopDirective?]
      · have named := h.id_emptied (inner explicit (by simp [Expansion.children]))
        simp only [Expansion.map, Option.map_some, loopDirective?, Directive.byId, named]
    | _ => simp only [Expansion.map, loopDirective?, Option.map_some, Directive.byId, Tree.id]

/-- A walk resolves the same in both trees where the directive leads no child of a choice or
of a repetition. -/
theorem visit_emptied (oracle : Oracle (Except AnalysisError)) (scope : Scope) (follow : FirstSet)
    (hg : registry.Grounded other)
    (free : ∀ parent child, registry.Reaches other parent → registry.Steers parent child →
      ¬registry.Heads child id) :
    oracle.visit scope follow ((registry.emptied id).tree other) =
      oracle.visit scope follow (registry.tree other) := by
  refine h.twin_induction (motive := fun other tree twin =>
    (∀ parent child, registry.Reaches other parent → registry.Steers parent child →
      ¬registry.Heads child id) →
    ∀ follow, oracle.visit scope follow twin = oracle.visit scope follow tree)
    (fun _ _ _ _ => rfl) (fun parent location expansion _ hp he ih free follow => ?_) hg free follow
  have grounds := hp.of_expansion he
  have step (child : NodeId) (hc : child ∈ expansion.children) : registry.Child parent child := by
    rwa [Child, childIds_eq he]
  have below (child : NodeId) (hc : child ∈ expansion.children) (follow : FirstSet) :
      oracle.visit scope follow ((registry.emptied id).tree child) =
        oracle.visit scope follow (registry.tree child) :=
    ih child hc (fun upper inner above => free upper inner (above.head (step child hc))) follow
  have led (decided : expansion.isDecided = true) (child : NodeId) (hc : child ∈ expansion.children) :
      ¬registry.Heads child id :=
    free parent child .refl ⟨expansion, he, decided, hc⟩
  have loop (kind : RepetitionKind) (body : NodeId) (guard : Option NodeId)
      (same : expansion = .repetition kind body guard) (follow : FirstSet) :
      oracle.loopPoint scope parent location kind ((registry.emptied id).tree body)
          (guard.map (registry.emptied id).tree) follow =
        oracle.loopPoint scope parent location kind (registry.tree body) (guard.map registry.tree)
          follow := by
    subst same
    have hb : body ∈ (Expansion.repetition kind body guard).children := by simp [Expansion.children]
    have directive := h.loopDirective_emptied fun child hc => ⟨grounds child hc, led rfl child hc⟩
    simp only [Oracle.loopPoint, Oracle.guard_congr oracle directive, h.id_emptied (grounds body hb)]
  have again (kind : RepetitionKind) (body : NodeId) (hb : body ∈ expansion.children)
      (follow : FirstSet) : oracle.bodyFollow scope kind ((registry.emptied id).tree body) follow =
        oracle.bodyFollow scope kind (registry.tree body) follow := by
    simp only [Oracle.bodyFollow, h.id_emptied (grounds body hb)]
  cases expansion with
  | sequence units =>
    have row (units' : List NodeId) (hs : units' ⊆ units) (follows : List FirstSet) :
        oracle.visitUnits scope follows (units'.map (registry.emptied id).tree) =
          oracle.visitUnits scope follows (units'.map registry.tree) := by
      induction units' generalizing follows with
      | nil => rfl
      | cons unit units' ihu =>
        rw [List.cons_subset] at hs
        simp only [List.map_cons, Oracle.visitUnits, below unit hs.1, ihu hs.2]
    have ids : List.Forall₂ (fun unit other : Tree => unit.id = other.id)
        (units.map (registry.emptied id).tree) (units.map registry.tree) := by
      rw [List.forall₂_map_left_iff, List.forall₂_map_right_iff, List.forall₂_same]
      exact fun unit hu => h.id_emptied (grounds unit hu)
    simp only [Expansion.map, Oracle.visit, Oracle.unitFollows_congr oracle ids,
      row units (List.Subset.refl _)]
  | choice alternatives =>
    have row (others : List NodeId) (hs : others ⊆ alternatives) :
        oracle.visitAlternatives scope follow (others.map (registry.emptied id).tree) =
          oracle.visitAlternatives scope follow (others.map registry.tree) := by
      induction others with
      | nil => rfl
      | cons alternative others iha =>
        rw [List.cons_subset] at hs
        simp only [List.map_cons, Oracle.visitAlternatives, below alternative hs.1, iha hs.2]
    have alike : List.Forall₂ (Tree.Alike scope.nullable)
        (alternatives.map (registry.emptied id).tree) (alternatives.map registry.tree) := by
      rw [List.forall₂_map_left_iff, List.forall₂_map_right_iff, List.forall₂_same]
      exact fun alternative ha =>
        h.alike_emptied (grounds alternative ha) (led rfl alternative ha) scope.nullable
    simp only [Expansion.map, Oracle.visit, Oracle.choicePoint, Oracle.entries_congr oracle alike,
      row alternatives (List.Subset.refl _)]
  | repetition kind body guard =>
    have hb : body ∈ (Expansion.repetition kind body guard).children := by simp [Expansion.children]
    have point := loop kind body guard rfl
    cases guard with
    | none =>
      simp only [Option.map_none] at point
      simp only [Expansion.map, Option.map_none, Oracle.visit, point, again kind body hb, below body hb]
    | some guard =>
      simp only [Option.map_some] at point
      simp only [Expansion.map, Option.map_some, Oracle.visit, point, again kind body hb, below body hb,
        below guard (by simp [Expansion.children])]
  | lookahead directive =>
    obtain ⟨amount, predicate, _ | guard⟩ := directive
    · simp only [Expansion.map, Option.map_none, Oracle.visit]
    · simp only [Expansion.map, Option.map_some, Oracle.visit,
        below guard (by simp [Expansion.children])]
  | tryBlock body handlers cleanup =>
    simp only [Expansion.map, Oracle.visit, below body (by simp [Expansion.children])]
  | _ => simp only [Expansion.map, Oracle.visit]

end IsAmount

end Registry

end BoundedLookahead
