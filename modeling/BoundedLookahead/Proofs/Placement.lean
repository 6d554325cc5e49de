import BoundedLookahead.Proofs.Slots

/-!
# Where directives count

The resolver looks ahead from each choice and each repetition for the directive that leads
an alternative, a body or an explicit lookahead, while validation hands a slot down the
tree. The two can be compared: a directive that is reported as misplaced is never taken,
and one that is not reported is taken unless it is overlooked. Validation overlooks the
directive that leads the body of a repetition with an explicit lookahead, and the directive
that leads an explicit lookahead without being it.
-/

namespace BoundedLookahead

namespace Registry

variable {registry : Registry} {id node : NodeId}

/-- The second node is the first unit of the first one. -/
def FirstUnit (registry : Registry) (parent unit : NodeId) : Prop :=
  ∃ rest, registry.expansion? parent = some (.sequence (unit :: rest))

/-- The second node is the first one, or it leads the first unit of that. -/
abbrev Heads (registry : Registry) : NodeId → NodeId → Prop :=
  Relation.ReflTransGen registry.FirstUnit

/-- A first unit is a child. -/
theorem FirstUnit.child {parent unit : NodeId} (h : registry.FirstUnit parent unit) :
    registry.Child parent unit := by
  obtain ⟨rest, he⟩ := h
  rw [Child, childIds_eq he]
  exact List.mem_cons_self

/-- What leads a node is below it. -/
theorem Heads.reaches (h : registry.Heads id node) : registry.Reaches id node := by
  induction h with
  | refl => exact .refl
  | tail _ step ih => exact ih.tail step.child

/-- A choice or a repetition is decided by what leads one of its children. -/
def Steers (registry : Registry) (parent child : NodeId) : Prop :=
  ∃ expansion, registry.expansion? parent = some expansion ∧ expansion.isDecided = true ∧
    child ∈ expansion.children

/-- Such a child is a child. -/
theorem Steers.child {parent child : NodeId} (h : registry.Steers parent child) :
    registry.Child parent child := by
  obtain ⟨expansion, he, _, hc⟩ := h
  rwa [Child, childIds_eq he]

/-- The node leads a child of a choice or of a repetition of a production. -/
def Steered (registry : Registry) (node : NodeId) : Prop :=
  ∃ parent child, registry.InProduction parent ∧ registry.Steers parent child ∧
    registry.Heads child node

/-- What validation meets in the slot of a decision leads a child of a choice or of a
repetition. -/
theorem Meets.steered {production : Production} (hp : production ∈ registry.productions)
    {stop : NodeId × Slot} (h : registry.Meets (production.root, .plain) stop)
    (decision : stop.2 = .decision) : registry.Steered stop.1 := by
  induction h with
  | refl => cases decision
  | @tail parent child above step ih =>
    obtain ⟨expansion, he, hc⟩ := step
    have inside : registry.InProduction parent.1 := ⟨production, hp, Meets.reaches above⟩
    have steers (decided : expansion.isDecided = true) : registry.Steered child.1 :=
      ⟨parent.1, child.1, inside, ⟨expansion, he, decided, child_of_mem_slots hc⟩, .refl⟩
    cases expansion with
    | sequence units =>
      cases units with
      | nil => cases hc
      | cons first rest =>
        rcases List.mem_cons.mp hc with rfl | hc
        · obtain ⟨upper, top, inside, steers, heads⟩ := ih decision
          exact ⟨upper, top, inside, steers, heads.tail ⟨rest, he⟩⟩
        · obtain ⟨unit, _, rfl⟩ := List.mem_map.mp hc
          cases decision
    | choice alternatives => exact steers rfl
    | repetition kind body guard => exact steers rfl
    | lookahead directive =>
      obtain ⟨guard, _, rfl⟩ := List.mem_map.mp hc
      cases decision
    | tryBlock body handlers cleanup =>
      rw [List.mem_singleton.mp hc] at decision
      cases decision
    | _ => cases hc

/-- Validation hands the slot of a decision to the children of choices and repetitions, and
on to what leads them. -/
theorem Grounded.exists_meets_steered (h : registry.Grounded id) {parent child : NodeId}
    (reached : registry.Reaches id parent) (steers : registry.Steers parent child)
    (heads : registry.Heads child node) (slot : Slot) :
    registry.Meets (id, slot) (node, .decision) := by
  obtain ⟨other, met⟩ := h.exists_meets reached slot
  obtain ⟨expansion, he, decided, hc⟩ := steers
  have top : registry.Meets (id, slot) (child, .decision) := by
    refine met.tail ⟨expansion, he, ?_⟩
    cases expansion with
    | choice alternatives => exact List.mem_map_of_mem hc
    | repetition kind body guard => exact List.mem_map_of_mem hc
    | _ => cases decided
  induction heads with
  | refl => exact top
  | tail _ step ih =>
    obtain ⟨rest, he⟩ := step
    exact ih.tail ⟨_, he, List.mem_cons_self⟩

section

variable {final : Owners} (ho : registry.owners = .ok final)

include ho

/-- Validation meets a node of a production in a plain slot when it leads no child of a
choice or of a repetition. -/
theorem meets_plain_iff {production : Production} (hp : production ∈ registry.productions) :
    registry.Meets (production.root, .plain) (node, .plain) ↔
      registry.Reaches production.root node ∧ ¬registry.Steered node := by
  have grounded := grounded_production ho production hp
  constructor
  · intro met
    refine ⟨met.reaches, ?_⟩
    rintro ⟨parent, child, ⟨other, hq, reached⟩, steers, heads⟩
    have below : registry.Reaches other.root node := (reached.tail steers.child).trans heads.reaches
    obtain rfl : production = other := production_eq_of_reaches ho hp hq met.reaches below
    have met' := grounded.exists_meets_steered reached steers heads .plain
    cases met.unique ho hp met' rfl
  · rintro ⟨reached, free⟩
    obtain ⟨slot, met⟩ := grounded.exists_meets reached .plain
    cases slot with
    | plain => exact met
    | decision => exact absurd (met.steered hp rfl) free

end

/-- A decision of a production takes the directive of the node. -/
inductive Consulted (registry : Registry) (node : NodeId) : Prop
  /-- The node leads an alternative of a choice. -/
  | alternative {choice alternative : NodeId} {alternatives : List NodeId}
    (inside : registry.InProduction choice)
    (he : registry.expansion? choice = some (.choice alternatives)) (ha : alternative ∈ alternatives)
    (heads : registry.Heads alternative node) : Consulted registry node
  /-- The node is the explicit lookahead of a repetition. -/
  | explicit {loop body : NodeId} {kind : RepetitionKind} (inside : registry.InProduction loop)
    (he : registry.expansion? loop = some (.repetition kind body (some node))) :
    Consulted registry node
  /-- The node leads the body of a repetition without an explicit lookahead. -/
  | body {loop body : NodeId} {kind : RepetitionKind} (inside : registry.InProduction loop)
    (he : registry.expansion? loop = some (.repetition kind body none))
    (heads : registry.Heads body node) : Consulted registry node

/-- No decision takes the directive of the node, although it stands where validation takes
it to steer one. -/
inductive Overlooked (registry : Registry) (node : NodeId) : Prop
  /-- The node leads the body of a repetition that has an explicit lookahead besides. -/
  | body {loop body guard : NodeId} {kind : RepetitionKind} (inside : registry.InProduction loop)
    (he : registry.expansion? loop = some (.repetition kind body (some guard)))
    (heads : registry.Heads body node) : Overlooked registry node
  /-- The node leads the explicit lookahead of a repetition, which is something else and so
  is read as a syntactic guard. -/
  | guard {loop body guard : NodeId} {kind : RepetitionKind} (inside : registry.InProduction loop)
    (he : registry.expansion? loop = some (.repetition kind body (some guard)))
    (heads : registry.Heads guard node) (inner : node ≠ guard) : Overlooked registry node

/-- What leads a child of a choice or of a repetition is consulted or overlooked. -/
theorem steered_iff : registry.Steered node ↔ registry.Consulted node ∨ registry.Overlooked node := by
  constructor
  · rintro ⟨parent, child, inside, ⟨expansion, he, decided, hc⟩, heads⟩
    cases expansion with
    | choice alternatives => exact .inl (.alternative inside he hc heads)
    | repetition kind body guard =>
      cases guard with
      | none =>
        obtain rfl : child = body := by simpa [Expansion.children] using hc
        exact .inl (.body inside he heads)
      | some guard =>
        rcases List.mem_cons.mp hc with rfl | hc
        · by_cases same : node = child
          · exact .inl (.explicit inside (same ▸ he))
          · exact .inr (.guard inside he heads same)
        · obtain rfl := List.mem_singleton.mp hc
          exact .inr (.body inside he heads)
    | _ => cases decided
  · rintro (consulted | overlooked)
    · cases consulted with
      | alternative inside he ha heads => exact ⟨_, _, inside, ⟨_, he, rfl, ha⟩, heads⟩
      | explicit inside he =>
        exact ⟨_, node, inside, ⟨_, he, rfl, by simp [Expansion.children]⟩, .refl⟩
      | body inside he heads =>
        exact ⟨_, _, inside, ⟨_, he, rfl, by simp [Expansion.children]⟩, heads⟩
    · cases overlooked with
      | body inside he heads =>
        exact ⟨_, _, inside, ⟨_, he, rfl, by simp [Expansion.children]⟩, heads⟩
      | guard inside he heads inner =>
        exact ⟨_, _, inside, ⟨_, he, rfl, by simp [Expansion.children]⟩, heads⟩

section

variable {final : Owners} (ho : registry.owners = .ok final)

include ho

/-- A node leads one child of one choice or repetition. -/
theorem Steers.unique {parent parent' child child' : NodeId} (inside : registry.InProduction parent)
    (inside' : registry.InProduction parent') (steers : registry.Steers parent child)
    (steers' : registry.Steers parent' child') (heads : registry.Heads child node)
    (heads' : registry.Heads child' node) : parent = parent' ∧ child = child' := by
  have top {parent child upper : NodeId} (inside : registry.InProduction parent)
      (steers : registry.Steers parent child) (above : registry.InProduction upper)
      (step : registry.FirstUnit upper child) : False := by
    obtain rfl : parent = upper := inside.parent_eq ho above steers.child step.child
    obtain ⟨expansion, he, decided, _⟩ := steers
    obtain ⟨rest, he'⟩ := step
    rw [he] at he'
    cases he'
    cases decided
  have between {parent child upper : NodeId} (inside : registry.InProduction parent)
      (steers : registry.Steers parent child) (heads : registry.Heads child upper) :
      registry.InProduction upper := by
    obtain ⟨production, hp, reached⟩ := inside
    exact ⟨production, hp, (reached.tail steers.child).trans heads.reaches⟩
  have same : child = child' := by
    induction heads with
    | refl =>
      rcases heads'.cases_tail with rfl | ⟨upper, above, step⟩
      · rfl
      · exact (top inside steers (between inside' steers' above) step).elim
    | @tail upper unit above step ih =>
      rcases heads'.cases_tail with rfl | ⟨upper', above', step'⟩
      · exact (top inside' steers' (between inside steers above) step).elim
      · obtain rfl : upper = upper' := (between inside steers above).parent_eq ho
          (between inside' steers' above') step.child step'.child
        exact ih above'
  subst same
  exact ⟨inside.parent_eq ho inside' steers.child steers'.child, rfl⟩

/-- What is overlooked is not consulted elsewhere. -/
theorem Overlooked.not_consulted (h : registry.Overlooked node) : ¬registry.Consulted node := by
  intro consulted
  obtain ⟨loop, body, guard, kind, child, inside, he, hc, heads, other⟩ : ∃ loop body guard kind child,
      registry.InProduction loop ∧
      registry.expansion? loop = some (.repetition kind body (some guard)) ∧
      child ∈ (Expansion.repetition kind body (some guard)).children ∧
      registry.Heads child node ∧ (child = guard → node ≠ guard) := by
    cases h with
    | @body loop body guard kind inside he heads =>
      refine ⟨loop, body, guard, kind, body, inside, he, by simp [Expansion.children], heads, ?_⟩
      have distinct := inside.nodup_childIds ho
      rw [childIds_eq he] at distinct
      rintro rfl
      simp [Expansion.children] at distinct
    | @guard loop body guard kind inside he heads inner =>
      exact ⟨loop, body, guard, kind, guard, inside, he, by simp [Expansion.children], heads,
        fun _ => inner⟩
  have steers : registry.Steers loop child := ⟨_, he, rfl, hc⟩
  cases consulted with
  | alternative inside' he' ha heads' =>
    obtain ⟨rfl, rfl⟩ := steers.unique ho inside inside' ⟨_, he', rfl, ha⟩ heads heads'
    rw [he] at he'
    cases he'
  | explicit inside' he' =>
    obtain ⟨rfl, rfl⟩ := steers.unique ho inside inside'
      ⟨_, he', rfl, by simp [Expansion.children]⟩ heads .refl
    rw [he] at he'
    cases he'
    exact other rfl rfl
  | body inside' he' heads' =>
    obtain ⟨rfl, rfl⟩ := steers.unique ho inside inside'
      ⟨_, he', rfl, by simp [Expansion.children]⟩ heads heads'
    rw [he] at he'
    cases he'

end

/-- The directive of a node, with the tree of its guard. -/
def directiveAt? (registry : Registry) (node : NodeId) : Option (Directive Tree) :=
  match registry.expansion? node with
  | some (.lookahead directive) =>
    some ⟨directive.amount, directive.predicate, directive.guard.map registry.tree⟩
  | _ => none

/-- The directive that leads a tree, which the resolver takes for an alternative or a body,
is that of the node that leads its root. -/
theorem Grounded.leadingDirective?_iff (h : registry.Grounded id) {directive : Directive Tree} :
    (registry.tree id).leadingDirective? = some directive ↔
      ∃ node, registry.Heads id node ∧ registry.directiveAt? node = some directive := by
  have alone {id : NodeId} (none : ∀ unit, ¬registry.FirstUnit id unit) :
      (∃ node, registry.Heads id node ∧ registry.directiveAt? node = some directive) ↔
        registry.directiveAt? id = some directive := by
    refine ⟨?_, fun own => ⟨id, .refl, own⟩⟩
    rintro ⟨node, heads, own⟩
    rcases heads.cases_head with rfl | ⟨unit, step, _⟩
    · exact own
    · exact absurd step (none unit)
  induction h with
  | @node id entry found below ih =>
    obtain ⟨expansion, location⟩ := entry
    have he : registry.expansion? id = some expansion := by simp [expansion?, found]
    have tree := Grounded.tree_eq (.node found below) found
    have single (other : ∀ unit rest, expansion ≠ .sequence (unit :: rest)) :
        ∀ unit, ¬registry.FirstUnit id unit := by
      rintro unit ⟨rest, he'⟩
      exact other unit rest (Option.some.inj (he.symm.trans he'))
    cases expansion with
    | sequence units =>
      cases units with
      | nil =>
        rw [alone (single fun _ _ same => by cases same), tree]
        simp [directiveAt?, he, Tree.leadingDirective?, Expansion.map]
      | cons first rest =>
        rw [tree]
        refine (ih first List.mem_cons_self).trans (exists_congr fun node => ?_)
        refine and_congr_left fun own => ⟨fun heads => heads.head ⟨rest, he⟩, fun heads => ?_⟩
        rcases heads.cases_head with rfl | ⟨unit, ⟨rest', he'⟩, heads⟩
        · simp [directiveAt?, he] at own
        · rw [he] at he'
          cases he'
          exact heads
    | lookahead found =>
      rw [alone (single fun _ _ same => by cases same), tree]
      simp [directiveAt?, he, Tree.leadingDirective?, Expansion.map]
    | _ =>
      rw [alone (single fun _ _ same => by cases same), tree]
      simp [directiveAt?, he, Tree.leadingDirective?, Expansion.map]

/-- The resolver takes the directive of the explicit lookahead of a repetition. Anything
else that stands there is a syntactic guard. -/
theorem Grounded.loopDirective?_explicit {guard : NodeId} (h : registry.Grounded guard) (body : Tree) :
    loopDirective? body (some (registry.tree guard)) =
      some ((registry.directiveAt? guard).getD ⟨none, none, some (registry.tree guard)⟩) := by
  obtain ⟨expansion, he, _⟩ := h.exists_expansion
  obtain ⟨location, ht⟩ := h.exists_tree_eq he
  rw [ht]
  cases expansion <;> simp [loopDirective?, directiveAt?, he, Expansion.map]

/-- The resolver takes the directive in deciding a choice or a repetition of a production. -/
inductive Taken (registry : Registry) (directive : Directive Tree) : Prop
  /-- It is the directive of an alternative. -/
  | alternative {choice alternative : NodeId} {alternatives : List NodeId}
    (inside : registry.InProduction choice)
    (he : registry.expansion? choice = some (.choice alternatives)) (ha : alternative ∈ alternatives)
    (taken : (registry.tree alternative).leadingDirective? = some directive) :
    Taken registry directive
  /-- It is the directive of a repetition, and not just what a syntactic guard is read as. -/
  | loop {loop body : NodeId} {kind : RepetitionKind} {guard : Option NodeId}
    (inside : registry.InProduction loop)
    (he : registry.expansion? loop = some (.repetition kind body guard))
    (written : ∀ explicit ∈ guard, registry.IsDirective explicit)
    (taken : loopDirective? (registry.tree body) (guard.map registry.tree) = some directive) :
    Taken registry directive

/-- The directives that the resolver takes are those of the consulted nodes. -/
theorem taken_iff
    (grounded : ∀ production ∈ registry.productions, registry.Grounded production.root)
    {directive : Directive Tree} : registry.Taken directive ↔
      ∃ node, registry.Consulted node ∧ registry.directiveAt? node = some directive := by
  have below {parent child : NodeId} {expansion : Expansion NodeId}
      (inside : registry.InProduction parent) (he : registry.expansion? parent = some expansion)
      (hc : child ∈ expansion.children) : registry.Grounded child :=
    (inside.of_child he hc).grounded_of grounded
  constructor
  · intro taken
    cases taken with
    | alternative inside he ha taken =>
      obtain ⟨node, heads, own⟩ := (below inside he ha).leadingDirective?_iff.mp taken
      exact ⟨node, .alternative inside he ha heads, own⟩
    | @loop loop body kind guard inside he written taken =>
      cases guard with
      | none =>
        have hb := below inside he (by simp [Expansion.children] : body ∈ _)
        obtain ⟨node, heads, own⟩ := hb.leadingDirective?_iff.mp taken
        exact ⟨node, .body inside he heads, own⟩
      | some explicit =>
        obtain ⟨found, hd⟩ := written explicit rfl
        have hg := below inside he (by simp [Expansion.children] : explicit ∈ _)
        rw [Option.map_some, hg.loopDirective?_explicit] at taken
        refine ⟨explicit, .explicit inside he, ?_⟩
        simpa [directiveAt?, hd] using taken
  · rintro ⟨node, consulted, own⟩
    cases consulted with
    | alternative inside he ha heads =>
      exact .alternative inside he ha ((below inside he ha).leadingDirective?_iff.mpr ⟨node, heads, own⟩)
    | explicit inside he =>
      have hg := below inside he (by simp [Expansion.children] : node ∈ _)
      refine .loop inside he (fun explicit hm => ?_) ?_
      · obtain rfl := Option.some.inj hm
        obtain ⟨expansion, hd, _⟩ := hg.exists_expansion
        refine (isDirective_iff hd).mpr ?_
        cases expansion <;> simp_all [directiveAt?, Expansion.isDirective]
      · rw [Option.map_some, hg.loopDirective?_explicit, own, Option.getD_some]
    | @body loop body kind inside he heads =>
      have hb := below inside he (by simp [Expansion.children] : body ∈ _)
      exact .loop inside he (fun _ hm => by cases hm) (hb.leadingDirective?_iff.mpr ⟨node, heads, own⟩)

/-- In an arena whose ownership is in order validation reports exactly those directives of
the productions that no decision takes and that it does not overlook. What it overlooks is
taken by no decision either. The directives that decisions take, as the resolver finds them
in the trees, are those of the consulted nodes. -/
theorem misplaced_exact {σ : Type} (options : Options) (state : σ) {final : Owners}
    (ho : registry.owners = .ok final) : ∃ report,
    (registry.validate options state).result = .ok report ∧
      (∃ reported : Production → List NodeId,
        report.diagnostics.ofKind .misplacedLookahead = (registry.productions.flatMap fun production =>
          (reported production).map fun node =>
            (registry.misplacedAt node).diagnostic production.name) ∧
        ∀ production ∈ registry.productions, (reported production).Nodup ∧
          ∀ node, node ∈ reported production ↔ registry.Reaches production.root node ∧
            registry.IsDirective node ∧ ¬registry.Consulted node ∧ ¬registry.Overlooked node) ∧
      (∀ node, registry.Overlooked node → ¬registry.Consulted node) ∧
      ∀ directive, registry.Taken directive ↔
        ∃ node, registry.Consulted node ∧ registry.directiveAt? node = some directive := by
  have grounded := grounded_production ho
  obtain ⟨names, found, hn, hf, hv⟩ := exists_validated options grounded
  refine ⟨registry.reportOf options names found, (validate_result state).trans hv,
    ⟨fun production => (registry.misplacedFrom options names (production.root, .plain)).map (·.node),
      ?_, fun production hp => ⟨?_, fun node => ?_⟩⟩,
    fun node overlooked => overlooked.not_consulted ho, fun directive => taken_iff grounded⟩
  · have located (production : Production) (hp : production ∈ registry.productions) :
        (registry.misplacedFrom options names (production.root, .plain)).map
            (·.diagnostic production.name) =
          ((registry.misplacedFrom options names (production.root, .plain)).map (·.node)).map
            fun node => (registry.misplacedAt node).diagnostic production.name := by
      rw [List.map_map]
      refine List.map_congr_left fun finding hm => ?_
      obtain ⟨node, _, _, rfl⟩ := (grounded production hp).mem_misplacedFrom.mp hm
      rfl
    rw [ofKind_reportOf hf (by decide), rules, List.flatMap_map]
    exact List.flatMap_congr fun production hp => located production hp
  · exact nodup_findingsFrom ho hp
  · have met : node ∈ (registry.misplacedFrom options names (production.root, .plain)).map (·.node) ↔
        registry.Meets (production.root, .plain) (node, .plain) ∧ registry.IsDirective node := by
      rw [List.mem_map]
      constructor
      · rintro ⟨finding, hm, rfl⟩
        obtain ⟨node, met, directive, rfl⟩ := (grounded production hp).mem_misplacedFrom.mp hm
        exact ⟨met, directive⟩
      · rintro ⟨met, directive⟩
        exact ⟨registry.misplacedAt node,
          (grounded production hp).mem_misplacedFrom.mpr ⟨node, met, directive, rfl⟩, rfl⟩
    rw [met, meets_plain_iff ho hp, steered_iff]
    tauto

/-- The grammar `S -> (LOOKAHEAD(2): LOOKAHEAD(3) a)* b LOOKAHEAD(1) c`. -/
def doubleGuard : Registry where
  nodes := #[⟨.lookahead ⟨some 3, none, none⟩, ⟨1, 4⟩⟩, ⟨.terminal "a", ⟨1, 5⟩⟩, ⟨.sequence [0, 1], ⟨1, 3⟩⟩,
    ⟨.lookahead ⟨some 2, none, none⟩, ⟨1, 2⟩⟩, ⟨.repetition .zeroOrMore 2 (some 3), ⟨1, 1⟩⟩,
    ⟨.lookahead ⟨some 1, none, none⟩, ⟨1, 7⟩⟩, ⟨.terminal "b", ⟨1, 6⟩⟩, ⟨.terminal "c", ⟨1, 8⟩⟩,
    ⟨.sequence [4, 6, 5, 7], ⟨1, 1⟩⟩]
  productions := [{ name := "S", root := 8 }]
  tokens := ["a", "b", "c"]

/-- Only the directive between `b` and `c` is reported there, although no decision takes the
one that leads the body: the loop looks two tokens ahead, not three. -/
theorem misplaced_doubleGuard : ∃ report analysis decision,
    (doubleGuard.validate {} ()).result = .ok report ∧
      report.diagnostics.ofKind .misplacedLookahead = [(doubleGuard.misplacedAt 5).diagnostic "S"] ∧
      (doubleGuard.analyze {} ()).result = .ok analysis ∧
      analysis.decision? 4 = some (.loop decision) ∧ decision.depth = 2 ∧
      doubleGuard.Reaches 8 0 ∧ doubleGuard.IsDirective 0 ∧ ¬doubleGuard.Consulted 0 := by
  have computed : (doubleGuard.analyze {} ()).result.toOption.map (fun analysis =>
      (analysis.decisions.loop? 4).map (·.depth)) = some (some 2) := by
    decide +kernel
  have validated : (doubleGuard.validate {} ()).result.toOption.map (fun report =>
      report.diagnostics.ofKind .misplacedLookahead) =
        some [(doubleGuard.misplacedAt 5).diagnostic "S"] := by
    decide +kernel
  obtain ⟨analysis, ha, depth⟩ := Option.map_eq_some_iff.mp computed
  obtain ⟨decision, hd, depth⟩ := Option.map_eq_some_iff.mp depth
  have decided : analysis.decision? 4 = some (.loop decision) := DecisionTable.loop?_eq_some.mp hd
  obtain ⟨report, hr, listed⟩ := Option.map_eq_some_iff.mp validated
  have analyzed := toOption_eq_some.mp ha
  obtain ⟨_, ⟨final, ho⟩, _⟩ := analyze_eq_ok analyzed
  obtain ⟨_, _, _, untaken, _⟩ := misplaced_exact {} () ho
  have unit : 4 ∈ doubleGuard.childIds 8 := by decide
  have body : 2 ∈ doubleGuard.childIds 4 := by decide
  have loop : doubleGuard.Reaches 8 4 := .single unit
  have leads : doubleGuard.Heads 2 0 := .single ⟨[1], rfl⟩
  have overlooked : doubleGuard.Overlooked 0 :=
    .body ⟨{ name := "S", root := 8 }, List.mem_cons_self, loop⟩ rfl leads
  have reached : doubleGuard.Reaches 8 0 := (loop.tail body).trans leads.reaches
  exact ⟨report, analysis, decision, toOption_eq_some.mp hr, listed, analyzed, decided, depth, reached,
    ⟨_, rfl⟩, untaken 0 overlooked⟩

end Registry

end BoundedLookahead
