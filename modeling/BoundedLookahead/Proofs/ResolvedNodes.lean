import BoundedLookahead.Proofs.Stages

/-!
# Resolved nodes

Every point that is resolved decides a choice or a repetition in the tree of a
production that is not blocked, and the decisions of an analysis are those of its
points.
-/

namespace BoundedLookahead

/-- The report of a repetition whose body can begin like what follows it. -/
def Scope.loopWarning (scope : Scope) (location : Location) (kind : RepetitionKind)
    (common : WordSet) : Diagnostic :=
  ⟨.loopConflict, scope.production, location,
    s!"choice conflict in \"{kind.operator}\": {WordSet.text common} can begin the body " ++
      "and also follow it; the body will be entered"⟩

namespace Registry

variable {registry : Registry} {limit : Nat} {scope : Scope}

/-- The point decides the root of the tree. -/
inductive Decides (registry : Registry) (limit : Nat) (scope : Scope) : Tree → Point → Prop
  /-- A choice is decided. -/
  | choice {id : NodeId} {location : Location} {alternatives : List Tree} {point : Point}
    (h : (registry.oracle limit).choicePoint scope id location alternatives = .ok point) :
    Decides registry limit scope (.node id location (.choice alternatives)) point
  /-- A repetition is decided, given what follows it. -/
  | repetition {id : NodeId} {location : Location} {kind : RepetitionKind} {body : Tree}
    {guard : Option Tree} {point : Point} (follow : FirstSet)
    (h : (registry.oracle limit).loopPoint scope id location kind body guard follow = .ok point) :
    Decides registry limit scope (.node id location (.repetition kind body guard)) point

/-- A repetition is decided by what its directive gives it and by the set of its body. What follows
it matters to the report only. -/
theorem loopPoint_eq (id : NodeId) (location : Location) (kind : RepetitionKind) (body : Tree)
    (guard : Option Tree) (follow : FirstSet) :
    (registry.oracle limit).loopPoint scope id location kind body guard follow = (do
      let (depth, found) ← (registry.oracle limit).guard scope (loopDirective? body guard)
      let set ← registry.firstOf limit body.id depth
      return ⟨id, .loop ⟨kind, body.id, depth, set, found⟩,
        if Guard.overridesIn found || (set.conflicts (follow.truncate depth)).isEmpty then []
        else [scope.loopWarning location kind (set.conflicts (follow.truncate depth))]⟩) := by
  refine bind_congr fun given => ?_
  obtain ⟨depth, found⟩ := given
  refine bind_congr fun set => ?_
  dsimp only
  cases Guard.overridesIn found with
  | true => rfl
  | false => cases (set.conflicts (follow.truncate depth)).isEmpty <;> rfl

/-- A repetition gets the decision of a loop, and a report when the sets of its body and
of what follows it are in conflict and no guard overrides. -/
theorem loopPoint_cases {id : NodeId} {location : Location} {kind : RepetitionKind} {body : Tree}
    {guard : Option Tree} {follow : FirstSet} {point : Point}
    (h : (registry.oracle limit).loopPoint scope id location kind body guard follow = .ok point) :
    ∃ depth found set,
      (registry.oracle limit).guard scope (loopDirective? body guard) = .ok (depth, found) ∧
      registry.firstOf limit body.id depth = .ok set ∧
      point = ⟨id, .loop ⟨kind, body.id, depth, set, found⟩,
        if Guard.overridesIn found || (set.conflicts (follow.truncate depth)).isEmpty then []
        else [scope.loopWarning location kind (set.conflicts (follow.truncate depth))]⟩ := by
  rw [loopPoint_eq] at h
  obtain ⟨⟨depth, found⟩, hg, h⟩ := bind_eq_ok.mp h
  obtain ⟨set, hs, h⟩ := bind_eq_ok.mp h
  cases h
  exact ⟨depth, found, set, hg, hs, rfl⟩

/-- A repetition gets the decision of a loop. -/
theorem loopPoint_eq_ok {id : NodeId} {location : Location} {kind : RepetitionKind} {body : Tree}
    {guard : Option Tree} {follow : FirstSet} {point : Point}
    (h : (registry.oracle limit).loopPoint scope id location kind body guard follow = .ok point) :
    ∃ depth found set warnings,
      (registry.oracle limit).guard scope (loopDirective? body guard) = .ok (depth, found) ∧
      registry.firstOf limit body.id depth = .ok set ∧
      point = ⟨id, .loop ⟨kind, body.id, depth, set, found⟩, warnings⟩ := by
  obtain ⟨depth, found, set, hg, hs, hp⟩ := loopPoint_cases h
  exact ⟨depth, found, set, _, hg, hs, hp⟩

/-- What is reported of a repetition is that its body begins like what follows it, in the
production that is walked. -/
theorem loopPoint_warnings {id : NodeId} {location : Location} {kind : RepetitionKind}
    {body : Tree} {guard : Option Tree} {follow : FirstSet} {point : Point}
    (h : (registry.oracle limit).loopPoint scope id location kind body guard follow = .ok point) :
    ∀ warning ∈ point.warnings,
      warning.production = scope.production ∧ warning.kind = .loopConflict := by
  obtain ⟨depth, found, set, _, _, rfl⟩ := loopPoint_cases h
  intro warning hw
  dsimp only at hw
  split at hw
  · cases hw
  · rw [List.mem_singleton.mp hw]
    exact ⟨rfl, rfl⟩

/-- What is reported of a repetition is that its body begins like what follows it. -/
theorem kind_of_mem_loopPoint {id : NodeId} {location : Location} {kind : RepetitionKind}
    {body : Tree} {guard : Option Tree} {follow : FirstSet} {point : Point}
    (h : (registry.oracle limit).loopPoint scope id location kind body guard follow = .ok point) :
    ∀ warning ∈ point.warnings, warning.kind = .loopConflict :=
  fun warning hw => (loopPoint_warnings h warning hw).2

/-- A point with the decision of a choice decides a choice. -/
theorem Decides.exists_choice {tree : Tree} {point : Point} {decision : ChoiceDecision}
    (h : registry.Decides limit scope tree point) (hd : point.decision = .choice decision) :
    ∃ id location alternatives, tree = .node id location (.choice alternatives) ∧
      (registry.oracle limit).choicePoint scope id location alternatives = .ok point := by
  cases h with
  | choice h => exact ⟨_, _, _, rfl, h⟩
  | repetition follow h =>
    obtain ⟨_, _, _, _, _, _, rfl⟩ := loopPoint_eq_ok h
    cases hd

/-- A point is at the root of the tree that it decides. -/
theorem Decides.node_eq {tree : Tree} {point : Point}
    (h : registry.Decides limit scope tree point) : point.node = tree.id := by
  cases h with
  | choice h =>
    obtain ⟨_, _, _, _, _, _, rfl⟩ := choicePoint_eq_ok h
    rfl
  | repetition follow h =>
    obtain ⟨_, _, _, _, _, _, rfl⟩ := loopPoint_eq_ok h
    rfl

/-- The problems found in deciding a node are reported in the production that is walked. -/
theorem Decides.production_eq {tree : Tree} {point : Point}
    (h : registry.Decides limit scope tree point) :
    ∀ warning ∈ point.warnings, warning.production = scope.production := by
  cases h with
  | choice h =>
    obtain ⟨_, _, _, _, he, hc, rfl⟩ := choicePoint_eq_ok h
    intro warning hw
    rcases List.mem_append.mp hw with hw | hw
    · exact (entries_warnings he warning hw).1
    · exact (ambiguities_warnings hc warning hw).1
  | repetition follow h => exact fun warning hw => (loopPoint_warnings h warning hw).1

/-- Points of units are points of a unit. -/
theorem exists_of_mem_visitUnits {follows : List FirstSet} {units : List Tree}
    {points : List Point} {point : Point}
    (h : (registry.oracle limit).visitUnits scope follows units = .ok points) (hp : point ∈ points) :
    ∃ unit ∈ units, ∃ follow inner,
      (registry.oracle limit).visit scope follow unit = .ok inner ∧ point ∈ inner := by
  induction units generalizing follows points with
  | nil =>
    cases h
    cases hp
  | cons unit units ih =>
    obtain ⟨inner, hi, h⟩ := bind_eq_ok.mp h
    obtain ⟨others, ho, h⟩ := bind_eq_ok.mp h
    cases h
    rcases List.mem_append.mp hp with hp | hp
    · exact ⟨unit, List.mem_cons_self, _, inner, hi, hp⟩
    · obtain ⟨other, hm, found⟩ := ih ho hp
      exact ⟨other, List.mem_cons_of_mem _ hm, found⟩

/-- Points of alternatives are points of an alternative. -/
theorem exists_of_mem_visitAlternatives {follow : FirstSet} {alternatives : List Tree}
    {points : List Point} {point : Point}
    (h : (registry.oracle limit).visitAlternatives scope follow alternatives = .ok points)
    (hp : point ∈ points) : ∃ alternative ∈ alternatives, ∃ inner,
      (registry.oracle limit).visit scope follow alternative = .ok inner ∧ point ∈ inner := by
  induction alternatives generalizing points with
  | nil =>
    cases h
    cases hp
  | cons alternative alternatives ih =>
    obtain ⟨inner, hi, h⟩ := bind_eq_ok.mp h
    obtain ⟨others, ho, h⟩ := bind_eq_ok.mp h
    cases h
    rcases List.mem_append.mp hp with hp | hp
    · exact ⟨alternative, List.mem_cons_self, inner, hi, hp⟩
    · obtain ⟨other, hm, found⟩ := ih ho hp
      exact ⟨other, List.mem_cons_of_mem _ hm, found⟩

/-- Every point of a tree decides a node of the tree. -/
theorem exists_decides {tree : Tree} {follow : FirstSet} {points : List Point} {point : Point}
    (h : (registry.oracle limit).visit scope follow tree = .ok points) (hp : point ∈ points) :
    ∃ below ∈ tree.subtrees, registry.Decides limit scope below point := by
  induction tree using Tree.induction generalizing follow points with
  | stray id =>
    cases h
    cases hp
  | node id location expansion ih =>
    have step {child : Tree} (hc : child ∈ expansion.children) {follow : FirstSet}
        {inner : List Point} (h : (registry.oracle limit).visit scope follow child = .ok inner)
        (hp : point ∈ inner) :
        ∃ below ∈ (Tree.node id location expansion).subtrees,
          registry.Decides limit scope below point := by
      obtain ⟨below, hb, hd⟩ := ih child hc h hp
      exact ⟨below, Tree.mem_subtrees_of_child hc hb, hd⟩
    cases expansion with
    | sequence units =>
      obtain ⟨found, _, h⟩ := bind_eq_ok.mp h
      obtain ⟨unit, hu, follow, inner, hi, hp⟩ := exists_of_mem_visitUnits h hp
      exact step hu hi hp
    | choice alternatives =>
      obtain ⟨first, hf, h⟩ := bind_eq_ok.mp h
      obtain ⟨others, ho, h⟩ := bind_eq_ok.mp h
      cases h
      rcases List.mem_cons.mp hp with rfl | hp
      · exact ⟨_, Tree.mem_subtrees_self _, .choice hf⟩
      · obtain ⟨alternative, ha, inner, hi, hp⟩ := exists_of_mem_visitAlternatives ho hp
        exact step ha hi hp
    | repetition kind body guard =>
      cases guard with
      | none =>
        obtain ⟨first, hf, h⟩ := bind_eq_ok.mp h
        obtain ⟨inner, _, h⟩ := bind_eq_ok.mp h
        obtain ⟨others, ho, h⟩ := bind_eq_ok.mp h
        cases h
        rcases List.mem_cons.mp hp with rfl | hp
        · exact ⟨_, Tree.mem_subtrees_self _, .repetition _ hf⟩
        · exact step (by simp [Expansion.children]) ho hp
      | some guard =>
        obtain ⟨first, hf, h⟩ := bind_eq_ok.mp h
        obtain ⟨inner, _, h⟩ := bind_eq_ok.mp h
        obtain ⟨guarded, hg, h⟩ := bind_eq_ok.mp h
        obtain ⟨others, ho, h⟩ := bind_eq_ok.mp h
        cases h
        rcases List.mem_append.mp hp with hp | hp
        · rcases List.mem_cons.mp hp with rfl | hp
          · exact ⟨_, Tree.mem_subtrees_self _, .repetition _ hf⟩
          · exact step (by simp [Expansion.children]) hg hp
        · exact step (by simp [Expansion.children]) ho hp
    | lookahead directive =>
      obtain ⟨amount, predicate, _ | guard⟩ := directive
      · cases h
        cases hp
      · have hg : guard ∈ (Expansion.lookahead ⟨amount, predicate, some guard⟩).children := by
          simp [Expansion.children]
        exact step hg h hp
    | tryBlock body handlers cleanup =>
      have hb : body ∈ (Expansion.tryBlock body handlers cleanup).children := by
        simp [Expansion.children]
      exact step hb h hp
    | terminal kind =>
      cases h
      cases hp
    | nonTerminal name args =>
      cases h
      cases hp
    | action code =>
      cases h
      cases hp

/-- Every resolved point decides a node of a production that is not blocked. -/
theorem exists_rule_decides {report : Report} {options : Options} {nullable : List String}
    {rules : List Rule} {points : List Point} {point : Point}
    (h : (registry.oracle limit).resolveRules report options nullable rules = .ok points)
    (hp : point ∈ points) : ∃ rule ∈ rules, report.isBlocked rule.name = false ∧
      ∃ below ∈ rule.tree.subtrees,
        registry.Decides limit (options.scope nullable rule.name rule.tree) below point := by
  induction rules generalizing points with
  | nil =>
    cases h
    cases hp
  | cons rule rules ih =>
    simp only [Oracle.resolveRules] at h
    split at h
    · obtain ⟨_, _, h⟩ := bind_eq_ok.mp h
      obtain ⟨_, hn, h⟩ := bind_eq_ok.mp h
      cases hn
      obtain ⟨others, ho, h⟩ := bind_eq_ok.mp h
      cases h
      obtain ⟨other, hm, found⟩ := ih ho hp
      exact ⟨other, List.mem_cons_of_mem _ hm, found⟩
    · next unblocked =>
      obtain ⟨_, _, h⟩ := bind_eq_ok.mp h
      obtain ⟨inner, hi, h⟩ := bind_eq_ok.mp h
      obtain ⟨others, ho, h⟩ := bind_eq_ok.mp h
      cases h
      rcases List.mem_append.mp hp with hp | hp
      · exact ⟨rule, List.mem_cons_self, by simpa using unblocked, exists_decides hi hp⟩
      · obtain ⟨other, hm, found⟩ := ih ho hp
        exact ⟨other, List.mem_cons_of_mem _ hm, found⟩

/-- The alternatives of a choice in the tree of a production stand in the production. -/
theorem InProduction.alternatives {final : Owners} (ho : registry.owners = .ok final)
    {production : Production} (hp : production ∈ registry.productions) {id : NodeId}
    {location : Location} {alternatives : List Tree}
    (hb : Tree.node id location (.choice alternatives) ∈ (registry.tree production.root).subtrees) :
    ∀ alternative ∈ alternatives, registry.InProduction alternative.id := by
  obtain ⟨node, hr, ht⟩ := (grounded_production ho _ hp).mem_subtrees.mp hb
  have hi : registry.InProduction node := ⟨production, hp, hr⟩
  obtain ⟨expansion, he, below⟩ := (hi.grounded ho).exists_expansion
  obtain ⟨_, htree⟩ := (hi.grounded ho).exists_tree_eq he
  rw [htree] at ht
  cases expansion with
  | choice children =>
    cases ht
    intro alternative ha
    obtain ⟨child, hc, rfl⟩ := List.mem_map.mp ha
    rw [(below child hc).tree_id]
    exact hi.of_child he hc
  | _ => cases ht

/-- A decision in the table is that of a point. -/
theorem exists_point_of_get? {points : List Point} {id : NodeId} {decision : Decision}
    (h : (Resolution.ofPoints points).decisions.get? id = some decision) :
    ∃ point ∈ points, point.node = id ∧ point.decision = decision := by
  have (entries : List (NodeId × Decision)) (table : DecisionTable)
      (h : (entries.foldl (fun table entry => table.insert entry.1 entry.2) table).get? id =
        some decision) : (id, decision) ∈ entries ∨ table.get? id = some decision := by
    induction entries generalizing table with
    | nil => exact .inr h
    | cons entry entries ih =>
      rcases ih _ h with hm | hm
      · exact .inl (List.mem_cons_of_mem _ hm)
      · rw [Std.ExtTreeMap.get?_eq_getElem?, Std.ExtTreeMap.getElem?_insert] at hm
        split at hm
        · next he =>
          rw [Nat.compare_eq_eq] at he
          cases hm
          exact .inl (List.mem_cons.mpr (.inl (Prod.ext he.symm rfl)))
        · exact .inr hm
  unfold Resolution.ofPoints at h
  rw [Std.ExtTreeMap.ofList_eq_foldl] at h
  rcases this _ _ h with hm | hm
  · obtain ⟨point, hp, he⟩ := List.mem_map.mp hm
    cases he
    exact ⟨point, hp, rfl, rfl⟩
  · cases hm

/-- The decision of a choice is that of a point. -/
theorem exists_point {points : List Point} {id : NodeId} {decision : ChoiceDecision}
    (h : (Resolution.ofPoints points).decisions.choice? id = some decision) :
    ∃ point ∈ points, point.node = id ∧ point.decision = .choice decision :=
  exists_point_of_get? (DecisionTable.choice?_eq_some.mp h)

/-- The decision of a repetition is that of a point. -/
theorem exists_loop_point {points : List Point} {id : NodeId} {decision : LoopDecision}
    (h : (Resolution.ofPoints points).decisions.loop? id = some decision) :
    ∃ point ∈ points, point.node = id ∧ point.decision = .loop decision :=
  exists_point_of_get? (DecisionTable.loop?_eq_some.mp h)

end Registry

end BoundedLookahead
