import BoundedLookahead.Proofs.EmptiedReports
import BoundedLookahead.Proofs.FollowDepths

/-!
# Directives that are said to be ignored

Validation says of a misplaced directive that it will be ignored. No decision takes it: with
an empty sequence in its place an analysis makes the same decisions. But its amount still
tells how far the walk over its production keeps what follows a node. Where no other amount
of the production is as great, first sets are found at a depth that nothing else asks for. An
analysis fails there when one of them outgrows the limit, and what is reported of the
repetitions of the production may differ unless every node derives something.
-/

namespace BoundedLookahead

namespace Registry

variable {registry : Registry} {options : Options} {report report' : Report} {production : Production}
  {id other : NodeId} {amount limit : Nat}

/-- The deepest directive of a production looks no further than a bound when none that it reaches
does. -/
theorem Grounded.deepestAmount_le_iff (hg : registry.Grounded other) {bound : Nat} :
    (registry.tree other).deepestAmount ≤ bound ↔ ∀ node directive, registry.Reaches other node →
      registry.expansion? node = some (.lookahead directive) →
        ∀ given ∈ directive.amount, given ≤ bound := by
  rw [Tree.deepestAmount_le_iff]
  constructor
  · intro all node directive reached he
    obtain ⟨location, ht⟩ := (hg.of_reaches reached).exists_tree_eq he
    have inside := hg.mem_subtrees.mpr ⟨node, reached, rfl⟩
    rw [ht] at inside
    exact all node location _ inside
  · intro all node location directive inside
    obtain ⟨node, reached, ht⟩ := hg.mem_subtrees.mp inside
    obtain ⟨expansion, he, _⟩ := (hg.of_reaches reached).exists_expansion
    obtain ⟨_, ht'⟩ := (hg.of_reaches reached).exists_tree_eq he
    rw [ht'] at ht
    cases expansion with
    | lookahead given =>
      cases ht
      exact all node given reached he
    | _ => cases ht

namespace IsAmount

variable (h : registry.IsAmount id amount)

include h

/-- What a node derives it derives in the emptied grammar. -/
theorem derives_emptied {may : Iteration} {word : Word} (derived : registry.Derives may other word) :
    (registry.emptied id).Derives may other word := by
  have kept {node : NodeId} {expansion : Expansion NodeId} (he : registry.expansion? node = some expansion)
      (apart : expansion ≠ .lookahead ⟨some amount, none, none⟩) :
      (registry.emptied id).expansion? node = some expansion := by
    rw [expansion?_emptied_of_ne, he]
    rintro rfl
    exact apart (Option.some.inj (he.symm.trans h))
  induction derived with
  | terminal he => exact .terminal (kept he nofun)
  | nonTerminal he defined _ ih => exact .nonTerminal (kept he nofun) defined ih
  | sequence pieces he _ ih => exact .sequence pieces (kept he nofun) ih
  | choice he taken _ ih => exact .choice (kept he nofun) taken ih
  | repetition words he runs _ ih => exact .repetition words (kept he nofun) runs ih
  | @lookahead node directive he =>
    by_cases same : node = id
    · subst same
      exact .sequence [] h.expansion?_emptied_self (by simp)
    · exact .lookahead ((expansion?_emptied_of_ne same).trans he)
  | action he => exact .action (kept he nofun)
  | tryBlock he _ ih => exact .tryBlock (kept he nofun) ih

/-- Where every node derives something, it still does in the emptied grammar. -/
theorem productive_emptied (productive : registry.Productive) : (registry.emptied id).Productive := by
  rintro node ⟨production, hp, reached⟩
  rw [h.reaches_emptied] at reached
  exact (productive node ⟨production, hp, reached⟩).imp fun _ derived => h.derives_emptied derived

/-- A tree without the directive is left as it is. -/
theorem tree_emptied_of_not_reaches (hg : registry.Grounded other) (apart : ¬registry.Reaches other id) :
    (registry.emptied id).tree other = registry.tree other := by
  refine h.twin_induction (motive := fun other tree twin => ¬registry.Reaches other id → twin = tree)
    (fun _ _ apart => absurd .refl apart) (fun parent location expansion _ _ he ih apart => ?_) hg apart
  rw [Expansion.map_congr fun child hc => ih child hc fun below => apart (.head ?_ below)]
  rwa [Child, childIds_eq he]

/-- The depth of a production with the directive is the greater one of its amount and of the depth
in the emptied grammar. -/
theorem followDepth_emptied (hg : registry.Grounded production.root)
    (reached : registry.Reaches production.root id) : registry.followDepth options production =
      max amount ((registry.emptied id).followDepth options production) := by
  have deepest : (registry.tree production.root).deepestAmount =
      max amount ((registry.emptied id).tree production.root).deepestAmount := by
    refine eq_of_forall_ge_iff fun bound => ?_
    rw [Nat.max_le, hg.deepestAmount_le_iff, (h.grounded_emptied hg).deepestAmount_le_iff,
      h.reaches_emptied]
    simp only [h.expansion?_emptied_lookahead_iff]
    constructor
    · exact fun all => ⟨all id _ reached h amount rfl, fun node directive below he =>
        all node directive below he.2⟩
    · rintro ⟨own, all⟩ node directive below he given hm
      by_cases same : node = id
      · subst same
        cases he.symm.trans h
        exact Option.mem_some_iff.mp hm ▸ own
      · exact all node directive below ⟨same, he⟩ given hm
  unfold followDepth
  rw [deepest, Nat.max_assoc]

section

variable {final : Owners} (ho : registry.owners = .ok final) (hp : production ∈ registry.productions)
  (reached : registry.Reaches production.root id)

include ho hp reached

/-- The depths of the other productions are the same. -/
theorem followDepth_emptied_of_ne (options : Options) {other : Production} (hq : other ∈ registry.productions)
    (apart : other ≠ production) :
    (registry.emptied id).followDepth options other = registry.followDepth options other := by
  unfold followDepth
  rw [h.tree_emptied_of_not_reaches (grounded_production ho other hq) fun below =>
    apart (production_eq_of_reaches ho hq hp below reached)]

end

section

variable {final : Owners} (ho : registry.owners = .ok final) (hp : production ∈ registry.productions)
  (met : registry.Meets (production.root, .plain) (id, .plain))

include ho hp met

/-- In the emptied grammar a walk resolves what it resolves in the one with the directive, where it
keeps what follows to the same depth. -/
theorem pointsTo_emptied (status : report'.status = report.status)
    (nullable : report'.nullable = report.nullable) {other : Production}
    (hq : other ∈ registry.productions) (depth : Nat) :
    (registry.emptied id).pointsTo report' options other depth =
      registry.pointsTo report options other depth := by
  have roots := grounded_production ho
  have hg := roots other hq
  have blocked : report'.isBlocked other.name = report.isBlocked other.name := by
    simp only [Report.isBlocked, Report.status?, status]
  cases hb : report.isBlocked other.name with
  | true => rw [pointsTo_blocked hb, pointsTo_blocked (blocked.trans hb)]
  | false =>
    rw [pointsTo_unblocked hb, pointsTo_unblocked (blocked.trans hb), nullable]
    have simulates : ((registry.emptied id).oracle options.expansionLimit).Simulates
        (outgrowing options.expansionLimit) registry.Grounded registry options.expansionLimit := by
      refine ⟨fun node hn k => ⟨h.firstOf_emptied roots hn options.expansionLimit k,
        fun cause => hn.outgrows_firstOf roots⟩, fun note => ⟨rfl, fun cause noted => ?_⟩⟩
      cases noted
    have inside : ((registry.emptied id).tree other.root).Within registry.Grounded := by
      intro below hb
      obtain ⟨node, above, rfl⟩ := (h.grounded_emptied hg).mem_subtrees.mp hb
      rw [h.reaches_emptied] at above
      rw [h.id_emptied (hg.of_reaches above), (hg.of_reaches above).tree_id]
      exact hg.of_reaches above
    refine (simulates.visit inside FirstSet.epsilon).1.trans ?_
    exact h.visit_emptied _ _ _ hg fun parent child above steers heads =>
      ((meets_plain_iff ho hp).mp met).2 ⟨parent, child, ⟨other, hq, above⟩, steers, heads⟩

variable (status : report'.status = report.status) (nullable : report'.nullable = report.nullable)

include status nullable

/-- The resolved nodes of the emptied grammar are those of the one with the directive to other
depths. -/
theorem points_emptied : (registry.emptied id).points report' options =
    ((registry.productions.mapM fun production =>
      registry.pointsTo report options production
        ((registry.emptied id).followDepth options production)) >>= fun parts => .ok parts.flatten) := by
  rw [points_eq_pointsTo]
  have productions : (registry.emptied id).productions = registry.productions := rfl
  rw [productions, mapM_congr fun other hq => h.pointsTo_emptied ho hp met status nullable hq _]

/-- Where the emptied grammar keeps what follows as far, the resolved nodes are the same. -/
theorem points_emptied_of_le
    (deep : amount ≤ (registry.emptied id).followDepth options production) :
    (registry.emptied id).points report' options = registry.points report options := by
  have grounded := grounded_production ho production hp
  rw [h.points_emptied ho hp met status nullable, points_eq_pointsTo]
  refine congrArg (· >>= _) (mapM_congr fun other hq => congrArg _ ?_)
  by_cases same : other = production
  · rw [same, h.followDepth_emptied grounded met.reaches, Nat.max_eq_right deep]
  · exact h.followDepth_emptied_of_ne ho hp met.reaches options hq same

/-- Whichever of both grammars has resolved nodes, those of the other one match them, or a first set
of it outgrows the limit at its depth. -/
theorem mirrors_points_emptied (options : Options) :
    (registry.oracle options.expansionLimit).Mirrors registry.Grounded
        (registry.followDepth options production) (List.Forall₂ (Point.Matches production.name))
        (registry.points report options) ((registry.emptied id).points report' options) ∧
      (registry.oracle options.expansionLimit).Mirrors registry.Grounded
        ((registry.emptied id).followDepth options production)
        (List.Forall₂ (Point.Matches production.name))
        ((registry.emptied id).points report' options) (registry.points report options) := by
  have grounded := grounded_production ho production hp
  have others {other : Production} (hq : other ∈ registry.productions) (apart : other ≠ production) :=
    h.followDepth_emptied_of_ne ho hp met.reaches options hq apart
  have same (points : List Point) : List.Forall₂ (Point.Matches production.name) points points :=
    List.forall₂_same.mpr fun point _ => .refl _ point
  rw [h.points_emptied ho hp met status nullable, points_eq_pointsTo]
  constructor
  · exact (mirrors_productions (fun other hq apart => (others hq apart).symm) same
      (mirrors_pointsTo grounded _ _)).bind fun parts parts' alike => .pure (List.rel_flatten alike)
  · exact (mirrors_productions (fun other hq apart => others hq apart) same
      (mirrors_pointsTo grounded _ _)).bind fun parts parts' alike => .pure (List.rel_flatten alike)

/-- Where the emptied grammar has resolved nodes, those of the one with the directive match them, or
a first set outgrows the limit at the amount. -/
theorem exists_points_of_emptied {points' : List Point}
    (hv' : (registry.emptied id).points report' options = .ok points') :
    (∃ points, registry.points report options = .ok points ∧
        List.Forall₂ (Point.Matches production.name) points points') ∨
      (registry.emptied id).followDepth options production < amount ∧ ∃ node size,
        registry.points report options =
          .error (.limitExceeded node amount size options.expansionLimit) := by
  have grounded := grounded_production ho
  have mirrors := (h.mirrors_points_emptied ho hp met status nullable options).1
  by_cases deep : amount ≤ (registry.emptied id).followDepth options production
  · rw [h.points_emptied_of_le ho hp met status nullable deep] at hv'
    exact .inl ⟨points', hv', List.forall₂_same.mpr fun point _ => .refl _ point⟩
  · rw [h.followDepth_emptied (grounded production hp) met.reaches,
      Nat.max_eq_left (Nat.le_of_not_le deep)] at mirrors
    exact (exists_of_mirrors grounded mirrors hv').imp_right fun failed => ⟨Nat.lt_of_not_le deep, failed⟩

/-- Where the grammar with the directive has resolved nodes, so does the emptied one, or a first set
outgrows the limit at its depth. -/
theorem exists_points_emptied {points : List Point}
    (hv : registry.points report options = .ok points) :
    (∃ points', (registry.emptied id).points report' options = .ok points') ∨
      (registry.emptied id).followDepth options production < amount ∧ ∃ node size,
        (registry.emptied id).points report' options = .error (.limitExceeded node
          ((registry.emptied id).followDepth options production) size options.expansionLimit) := by
  have mirrors := (h.mirrors_points_emptied ho hp met status nullable options).2
  by_cases deep : amount ≤ (registry.emptied id).followDepth options production
  · exact .inl ⟨points, (h.points_emptied_of_le ho hp met status nullable deep).trans hv⟩
  · exact (exists_of_mirrors (grounded_production ho) mirrors hv).imp
      (fun found => found.imp fun _ both => both.1) fun failed => ⟨Nat.lt_of_not_le deep, failed⟩

/-- Where every node derives something, both grammars have the same resolved nodes if they have
any. -/
theorem points_emptied_of_productive (productive : registry.Productive)
    (positive : 0 < options.lookahead) {points points' : List Point}
    (hv : registry.points report options = .ok points)
    (hv' : (registry.emptied id).points report' options = .ok points') : points = points' := by
  have grounded := grounded_production ho production hp
  have own : (registry.oracle options.expansionLimit).Mirrors registry.Grounded
      (registry.followDepth options production) Eq
      (registry.pointsTo report options production (registry.followDepth options production))
      (registry.pointsTo report options production
        ((registry.emptied id).followDepth options production)) := by
    refine (mirrors_pointsTo grounded _ _).mono fun points points' hq hq' _ => ?_
    rw [← h.pointsTo_emptied ho hp met status nullable hp] at hq hq'
    refine pointsTo_eq_of_productive ((h.owners_emptied).trans ho) (h.productive_emptied productive)
      positive hp ?_ hq hq'
    rw [h.followDepth_emptied grounded met.reaches]
    exact Nat.le_max_right _ _
  have whole := mirrors_productions (fun other hq apart =>
    (h.followDepth_emptied_of_ne ho hp met.reaches options hq apart).symm)
    (fun _ => rfl) own
  rw [points_eq_pointsTo] at hv
  rw [h.points_emptied ho hp met status nullable] at hv'
  have flat := whole.bind fun parts parts' (alike : List.Forall₂ Eq parts parts') =>
    .pure (congrArg List.flatten (List.forall₂_eq_eq_eq ▸ alike))
  rcases flat points' hv' with ⟨found, hf, rfl⟩ | ⟨_, _, _, _, failed⟩
  · exact Except.ok.inj (hv.symm.trans hf)
  · cases hv.symm.trans failed

/-- Where both grammars have resolved nodes, these match, and they are the same where the emptied
grammar keeps what follows as far or every node derives something. -/
theorem matches_points_emptied (positive : 0 < options.lookahead) {points points' : List Point}
    (hv : registry.points report options = .ok points)
    (hv' : (registry.emptied id).points report' options = .ok points') :
    List.Forall₂ (Point.Matches production.name) points points' ∧
      (amount ≤ (registry.emptied id).followDepth options production ∨ registry.Productive →
        points = points') := by
  refine ⟨?_, fun given => ?_⟩
  · rcases h.exists_points_of_emptied ho hp met status nullable hv' with
      ⟨found, hf, alike⟩ | ⟨_, _, _, failed⟩
    · cases hv.symm.trans hf
      exact alike
    · cases hv.symm.trans failed
  · rcases given with deep | productive
    · rw [h.points_emptied_of_le ho hp met status nullable deep] at hv'
      exact Except.ok.inj (hv.symm.trans hv')
    · exact h.points_emptied_of_productive ho hp met status nullable productive positive hv hv'

end

/-- What an analysis makes of a directive that is said to be ignored. In the grammar with an empty
sequence in its place it has the same decisions and statuses, and the same problems but for the
warning and for those of repetitions of its production. One analysis succeeds where the other one
does, unless a first set outgrows the limit at the depth to which the walk over the production keeps
what follows. Where the production keeps it as far without the directive, or every node derives
something, the warning is all that the diagnostics lack. -/
theorem analyze_emptied {σ : Type} (misplaced : registry.Misplaces options production id) (state : σ) :
    (∀ other, ((registry.emptied id).analyze options state).result = .ok other →
      (∃ analysis, (registry.analyze options state).result = .ok analysis) ∨
        (registry.emptied id).followDepth options production < amount ∧ ∃ node size,
          (registry.analyze options state).result =
            .error (.limitExceeded node amount size options.expansionLimit)) ∧
      (∀ analysis, (registry.analyze options state).result = .ok analysis →
        (∃ other, ((registry.emptied id).analyze options state).result = .ok other) ∨
          (registry.emptied id).followDepth options production < amount ∧ ∃ node size,
            ((registry.emptied id).analyze options state).result =
              .error (.limitExceeded node ((registry.emptied id).followDepth options production) size
                options.expansionLimit)) ∧
      ∀ analysis other, (registry.analyze options state).result = .ok analysis →
        ((registry.emptied id).analyze options state).result = .ok other →
        other.decisions = analysis.decisions ∧ other.status = analysis.status ∧
          other.lookaheadRan = analysis.lookaheadRan ∧
          DropsOne ((registry.misplacedAt id).diagnostic production.name)
            (analysis.diagnostics.items.filter fun problem => !problem.isLoopConflictOf production.name)
            (other.diagnostics.items.filter fun problem => !problem.isLoopConflictOf production.name) ∧
          (amount ≤ (registry.emptied id).followDepth options production ∨ registry.Productive →
            DropsOne ((registry.misplacedAt id).diagnostic production.name) analysis.diagnostics.items
              other.diagnostics.items) := by
  by_cases valid : options.check = .ok () ∧ ∃ final, registry.owners = .ok final
  swap
  · have refused {grammar : Registry} (same : grammar.owners = registry.owners) (analysis : Analysis) :
        (grammar.analyze options state).result ≠ .ok analysis := by
      intro ha
      obtain ⟨hc, ⟨final, ho⟩, _⟩ := analyze_eq_ok ha
      exact valid ⟨hc, final, same.symm.trans ho⟩
    exact ⟨fun other ha => absurd ha (refused h.owners_emptied other),
      fun analysis ha => absurd ha (refused rfl analysis),
      fun analysis _ ha => absurd ha (refused rfl analysis)⟩
  obtain ⟨hc, final, ho⟩ := valid
  have ho' := h.owners_emptied.trans ho
  obtain ⟨hp, met⟩ := misplaced.meets ho
  obtain ⟨report, report', hr, hr', status, nullable, cycles, dropped⟩ := h.validated_emptied ho misplaced
  have free' : report'.isLeftRecursionFree = report.isLeftRecursionFree := by
    simp only [Report.isLeftRecursionFree, cycles]
  cases free : report.isLeftRecursionFree with
  | false =>
    rw [analyze_unresolved hc ho hr free, analyze_unresolved hc ho' hr' (free'.trans free)]
    refine ⟨fun _ _ => .inl ⟨_, rfl⟩, fun _ _ => .inl ⟨_, rfl⟩, ?_⟩
    rintro analysis other ha ha'
    cases ha
    cases ha'
    exact ⟨rfl, status, rfl, dropped.filter rfl rfl, fun _ => dropped.append_right []⟩
  | true =>
    rw [analyze_free hc ho hr free, analyze_free hc ho' hr' (free'.trans free)]
    refine ⟨fun other ha => ?_, fun analysis ha => ?_, fun analysis other ha ha' => ?_⟩
    · obtain ⟨points', hv', _⟩ := bind_eq_ok.mp ha
      rcases h.exists_points_of_emptied ho hp met status nullable hv' with
        ⟨points, hv, _⟩ | ⟨deep, node, size, failed⟩
      · exact .inl ⟨_, bind_eq_ok.mpr ⟨points, hv, rfl⟩⟩
      · exact .inr ⟨deep, node, size, bind_eq_error.mpr (.inl failed)⟩
    · obtain ⟨points, hv, _⟩ := bind_eq_ok.mp ha
      rcases h.exists_points_emptied ho hp met status nullable hv with
        ⟨points', hv'⟩ | ⟨deep, node, size, failed⟩
      · exact .inl ⟨_, bind_eq_ok.mpr ⟨points', hv', rfl⟩⟩
      · exact .inr ⟨deep, node, size, bind_eq_error.mpr (.inl failed)⟩
    · obtain ⟨points, hv, ha⟩ := bind_eq_ok.mp ha
      obtain ⟨points', hv', ha'⟩ := bind_eq_ok.mp ha'
      cases ha
      cases ha'
      obtain ⟨alike, same⟩ := h.matches_points_emptied ho hp met status nullable
        (Options.check_eq_ok_iff.mp hc).1 hv hv'
      exact ⟨(decisions_of_matches alike).symm, status, rfl,
        dropped.filter rfl (warnings_of_matches alike), fun given => same given ▸ dropped.append_right _⟩

end IsAmount

/-- The grammar `S -> P LOOKAHEAD(2) P`, `P -> A A`, `A -> a | b`. -/
def spacedPairs : Registry where
  nodes := #[⟨.nonTerminal "P" [], {}⟩, ⟨.lookahead ⟨some 2, none, none⟩, {}⟩, ⟨.nonTerminal "P" [], {}⟩,
    ⟨.sequence [0, 1, 2], {}⟩, ⟨.nonTerminal "A" [], {}⟩, ⟨.nonTerminal "A" [], {}⟩, ⟨.sequence [4, 5], {}⟩,
    ⟨.terminal "a", {}⟩, ⟨.terminal "b", {}⟩, ⟨.choice [7, 8], {}⟩]
  productions := [{ name := "S", root := 3 }, { name := "P", root := 6 }, { name := "A", root := 9 }]
  tokens := ["a", "b"]

/-- The directive of `S` is said to be ignored there, and yet it is all that the analysis fails for
when first sets may hold three words. -/
theorem limitExceeded_spacedPairs : spacedPairs.IsAmount 1 2 ∧
    spacedPairs.Misplaces { expansionLimit := 3 } { name := "S", root := 3 } 1 ∧
    (∃ other, ((spacedPairs.emptied 1).analyze { expansionLimit := 3 } ()).result = .ok other) ∧
    ∃ node size, (spacedPairs.analyze { expansionLimit := 3 } ()).result =
      .error (.limitExceeded node 2 size 3) := by
  have directive : spacedPairs.IsAmount 1 2 := rfl
  have names : spacedPairs.nullableNames = .ok [] := by decide +kernel
  have found : spacedPairs.foundIn { expansionLimit := 3 } [] =
      .ok [({ name := "S", root := 3 }, [spacedPairs.misplacedAt 1]), ({ name := "P", root := 6 }, []),
        ({ name := "A", root := 9 }, [])] := by rfl
  have misplaced : spacedPairs.Misplaces { expansionLimit := 3 } { name := "S", root := 3 } 1 :=
    ⟨_, _, _, names, found, List.mem_cons_self, List.mem_cons_self⟩
  have fails : (spacedPairs.analyze { expansionLimit := 3 } ()).result.toOption.isNone = true := by
    decide +kernel
  have succeeds : ((spacedPairs.emptied 1).analyze { expansionLimit := 3 } ()).result.toOption.isSome =
      true := by decide +kernel
  obtain ⟨other, analyzed⟩ := exists_eq_ok_of_isSome succeeds
  refine ⟨directive, misplaced, ⟨other, analyzed⟩, ?_⟩
  rcases (directive.analyze_emptied misplaced ()).1 other analyzed with ⟨analysis, ha⟩ | ⟨_, exceeded⟩
  · rw [ha] at fails
    cases fails
  · exact exceeded

/-- The grammar `S -> x* LOOKAHEAD(2) U`, `U -> x U`, where nothing is derived from `U`. -/
def endlessTail : Registry where
  nodes := #[⟨.terminal "x", {}⟩, ⟨.repetition .zeroOrMore 0 none, {}⟩, ⟨.lookahead ⟨some 2, none, none⟩, {}⟩,
    ⟨.nonTerminal "U" [], {}⟩, ⟨.sequence [1, 2, 3], {}⟩, ⟨.terminal "x", {}⟩, ⟨.nonTerminal "U" [], {}⟩,
    ⟨.sequence [5, 6], {}⟩]
  productions := [{ name := "S", root := 4 }, { name := "U", root := 7 }]
  tokens := ["x"]

/-- Without the directive the loop is warned of, with it only the directive is. -/
example : ((endlessTail.analyze {} ()).result.toOption.map (·.diagnostics.items.map (·.kind)),
    ((endlessTail.emptied 2).analyze {} ()).result.toOption.map (·.diagnostics.items.map (·.kind))) =
      (some [.misplacedLookahead], some [.loopConflict]) := by
  decide +kernel

end Registry

end BoundedLookahead
