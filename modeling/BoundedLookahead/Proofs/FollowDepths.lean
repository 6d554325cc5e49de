import BoundedLookahead.Proofs.Inheritance
import BoundedLookahead.Proofs.LoopConflicts
import BoundedLookahead.Proofs.Safety

/-!
# Walks at two depths

How far a walk over a production keeps what follows a node decides nothing. Two walks that
keep it to different depths make the same decisions with the same warnings, but for those of
repetitions, and where one of them comes to its end the other one fails only over a first set
at its own depth. Where every node derives something the warnings of repetitions are the same
too: no decision looks further than either walk keeps.
-/

namespace BoundedLookahead

/-- Where the given outcome is a success, the other one is one with a related value, or it fails as
the oracle does over one of the nodes at the depth. -/
def Oracle.Mirrors (oracle : Oracle (Except AnalysisError)) (ids : NodeId → Prop) (depth : Nat)
    {α β : Type} (related : α → β → Prop) (outcome : Except AnalysisError α)
    (given : Except AnalysisError β) : Prop :=
  ∀ b, given = .ok b → (∃ a, outcome = .ok a ∧ related a b) ∨
    ∃ node cause, ids node ∧ oracle.first node depth = .error cause ∧ outcome = .error cause

namespace Oracle.Mirrors

variable {oracle : Oracle (Except AnalysisError)} {ids : NodeId → Prop} {depth : Nat} {α β γ δ : Type}
  {related : α → β → Prop} {related' : γ → δ → Prop}

/-- Finishing with related values. -/
protected theorem pure {a : α} {b : β} (h : related a b) :
    oracle.Mirrors ids depth related (.ok a) (.ok b) := by
  intro other he
  cases he
  exact .inl ⟨a, rfl, h⟩

/-- An outcome mirrors itself. -/
protected theorem refl (outcome : Except AnalysisError α) :
    oracle.Mirrors ids depth Eq outcome outcome :=
  fun a he => .inl ⟨a, he, rfl⟩

/-- Two steps mirror two steps. -/
protected theorem bind {outcome : Except AnalysisError α} {given : Except AnalysisError β}
    {next : α → Except AnalysisError γ} {next' : β → Except AnalysisError δ}
    (first : oracle.Mirrors ids depth related outcome given)
    (then' : ∀ a b, related a b → oracle.Mirrors ids depth related' (next a) (next' b)) :
    oracle.Mirrors ids depth related' (outcome >>= next) (given >>= next') := by
  intro d he
  obtain ⟨b, hg, hn⟩ := bind_eq_ok.mp he
  rcases first b hg with ⟨a, rfl, hr⟩ | ⟨node, cause, inside, failed, rfl⟩
  · exact then' a b hr d hn
  · exact .inr ⟨node, cause, inside, failed, rfl⟩

/-- A first set at the depth is found, whatever it is, or it is what fails. -/
protected theorem first {node : NodeId} (inside : ids node) (other : Nat) :
    oracle.Mirrors ids depth (fun _ _ => True) (oracle.first node depth) (oracle.first node other) := by
  intro _ _
  cases h : oracle.first node depth with
  | ok set => exact .inl ⟨set, rfl, trivial⟩
  | error cause => exact .inr ⟨node, cause, inside, h, rfl⟩

/-- Where the values of two successes are related in another way, so is what mirrors. -/
protected theorem mono {outcome : Except AnalysisError α} {given : Except AnalysisError β}
    {further : α → β → Prop} (h : oracle.Mirrors ids depth related outcome given)
    (imp : ∀ a b, outcome = .ok a → given = .ok b → related a b → further a b) :
    oracle.Mirrors ids depth further outcome given := by
  intro b hg
  rcases h b hg with ⟨a, ha, hr⟩ | failed
  · exact .inl ⟨a, ha, imp a b ha hg hr⟩
  · exact .inr failed

/-- Outcomes in a row are mirrored one by one. -/
protected theorem mapM {ι : Type} {outcome : ι → Except AnalysisError α}
    {given : ι → Except AnalysisError β} {inputs : List ι}
    (h : ∀ input ∈ inputs, oracle.Mirrors ids depth related (outcome input) (given input)) :
    oracle.Mirrors ids depth (List.Forall₂ related) (inputs.mapM outcome) (inputs.mapM given) := by
  induction inputs with
  | nil => exact .pure .nil
  | cons input inputs ih =>
    rw [List.forall_mem_cons] at h
    rw [List.mapM_cons, List.mapM_cons]
    exact h.1.bind fun a b hr => (ih h.2).bind fun as bs hrs => .pure (.cons hr hrs)

end Oracle.Mirrors

/-- The problem is that of a repetition of the production whose body begins like what follows it. -/
def Diagnostic.isLoopConflictOf (production : String) (diagnostic : Diagnostic) : Bool :=
  diagnostic.kind == .loopConflict && diagnostic.production == production

/-- The points are at one node and hold one decision, with the same warnings but for those that a
repetition of the production is given. -/
structure Point.Matches (production : String) (point other : Point) : Prop where
  /-- The node is the same. -/
  node : point.node = other.node
  /-- The decision is the same. -/
  decision : point.decision = other.decision
  /-- The other warnings are the same. -/
  warnings : point.warnings.filter (fun warning => !warning.isLoopConflictOf production) =
    other.warnings.filter fun warning => !warning.isLoopConflictOf production

theorem Point.Matches.refl (production : String) (point : Point) : point.Matches production point :=
  ⟨rfl, rfl, rfl⟩

section

variable {production : String} {points others : List Point}
  (alike : List.Forall₂ (Point.Matches production) points others)

include alike

/-- Points that match make the same table of decisions. -/
theorem decisions_of_matches :
    (Resolution.ofPoints points).decisions = (Resolution.ofPoints others).decisions := by
  have entries : points.map (fun point => (point.node, point.decision)) =
      others.map fun point => (point.node, point.decision) := by
    induction alike with
    | nil => rfl
    | cons first _ ih => rw [List.map_cons, List.map_cons, first.node, first.decision, ih]
  unfold Resolution.ofPoints
  rw [entries]

/-- They have the same warnings but for those of repetitions. -/
theorem warnings_of_matches : (Resolution.ofPoints points).diagnostics.items.filter
      (fun warning => !warning.isLoopConflictOf production) =
    (Resolution.ofPoints others).diagnostics.items.filter fun warning =>
      !warning.isLoopConflictOf production := by
  unfold Resolution.ofPoints
  induction alike with
  | nil => rfl
  | cons first _ ih =>
    rw [List.flatMap_cons, List.flatMap_cons, List.filter_append, List.filter_append, first.warnings, ih]

end

namespace Registry

variable {registry : Registry} {limit : Nat} {scope : Scope} {depth : Nat} {ids : NodeId → Prop}

/-- What mirrors a success of the solutions of a grammar is one too, or a first set outgrows the
limit at the depth. -/
theorem exists_of_mirrors
    (grounded : ∀ production ∈ registry.productions, registry.Grounded production.root) {α β : Type}
    {related : α → β → Prop} {outcome : Except AnalysisError α} {given : Except AnalysisError β}
    (h : (registry.oracle limit).Mirrors registry.Grounded depth related outcome given) {b : β}
    (hb : given = .ok b) : (∃ a, outcome = .ok a ∧ related a b) ∨
      ∃ node size, outcome = .error (.limitExceeded node depth size limit) := by
  rcases h b hb with found | ⟨node, cause, inside, failed, rfl⟩
  · exact .inl found
  · obtain ⟨other, size, rfl, _⟩ := inside.firstOf_error grounded failed
    exact .inr ⟨other, size, rfl⟩

/-- A repetition is decided alike, whatever follows it. -/
theorem mirrors_loopPoint (id : NodeId) (location : Location) (kind : RepetitionKind) (body : Tree)
    (guard : Option Tree) (follow follow' : FirstSet) :
    (registry.oracle limit).Mirrors ids scope.followDepth (Point.Matches scope.production)
      ((registry.oracle limit).loopPoint scope id location kind body guard follow)
      ((registry.oracle limit).loopPoint { scope with followDepth := depth } id location kind body guard
        follow') := by
  have quiet (plain : Bool) (words : WordSet) :
      (if plain || words.isEmpty then [] else [scope.loopWarning location kind words]).filter
        (fun warning => !warning.isLoopConflictOf scope.production) = [] := by
    split <;> simp [Diagnostic.isLoopConflictOf, Scope.loopWarning]
  have directive : (registry.oracle limit).guard { scope with followDepth := depth }
      (loopDirective? body guard) = (registry.oracle limit).guard scope (loopDirective? body guard) :=
    Oracle.guard_scope _ _
  rw [loopPoint_eq, loopPoint_eq, directive]
  refine (Oracle.Mirrors.refl _).bind fun given _ same => ?_
  subst same
  refine (Oracle.Mirrors.refl _).bind fun set _ same => ?_
  subst same
  exact .pure ⟨rfl, rfl, (quiet _ _).trans (quiet _ _).symm⟩

/-- A walk mirrors another one over the same tree that keeps what follows to another depth. -/
theorem mirrors_visit {tree : Tree} (inside : tree.Within ids) (follow follow' : FirstSet) :
    (registry.oracle limit).Mirrors ids scope.followDepth
      (List.Forall₂ (Point.Matches scope.production))
      ((registry.oracle limit).visit scope follow tree)
      ((registry.oracle limit).visit { scope with followDepth := depth } follow' tree) := by
  -- the sets of what follows are related by nothing: only whether they are found matters
  induction tree using Tree.induction generalizing follow follow' with
  | stray id => exact .pure .nil
  | node id location expansion ih =>
    have below (child : Tree) (hc : child ∈ expansion.children) (follow follow' : FirstSet) :=
      ih child hc (inside.child hc) follow follow'
    have again (kind : RepetitionKind) (body : Tree) (hb : body ∈ expansion.children) :
        (registry.oracle limit).Mirrors ids scope.followDepth (fun _ _ => True)
          ((registry.oracle limit).bodyFollow scope kind body follow)
          ((registry.oracle limit).bodyFollow { scope with followDepth := depth } kind body follow') := by
      unfold Oracle.bodyFollow
      split
      · exact (Oracle.Mirrors.first (inside.child hb).root depth).bind fun _ _ _ => .pure trivial
      · exact .pure trivial
    cases expansion with
    | sequence units =>
      have behind (units' : List Tree) (hs : units' ⊆ units) :
          (registry.oracle limit).Mirrors ids scope.followDepth (fun _ _ => True)
            ((registry.oracle limit).unitFollows scope follow units')
            ((registry.oracle limit).unitFollows { scope with followDepth := depth } follow' units') := by
        induction units' with
        | nil => exact .pure trivial
        | cons unit units' ihu =>
          rw [List.cons_subset] at hs
          exact (ihu hs.2).bind fun _ _ _ =>
            (Oracle.Mirrors.first (inside.child hs.1).root depth).bind fun _ _ _ => .pure trivial
      have row (units' : List Tree) (hs : units' ⊆ units) (follows follows' : List FirstSet) :
          (registry.oracle limit).Mirrors ids scope.followDepth
            (List.Forall₂ (Point.Matches scope.production))
            ((registry.oracle limit).visitUnits scope follows units')
            ((registry.oracle limit).visitUnits { scope with followDepth := depth } follows' units') := by
        induction units' generalizing follows follows' with
        | nil => exact .pure .nil
        | cons unit units' ihu =>
          rw [List.cons_subset] at hs
          exact (below unit hs.1 _ _).bind fun _ _ first =>
            (ihu hs.2 _ _).bind fun _ _ rest => .pure (List.rel_append first rest)
      exact (behind units (List.Subset.refl _)).bind fun _ _ _ => row units (List.Subset.refl _) _ _
    | choice alternatives =>
      have row (others : List Tree) (hs : others ⊆ alternatives) :
          (registry.oracle limit).Mirrors ids scope.followDepth
            (List.Forall₂ (Point.Matches scope.production))
            ((registry.oracle limit).visitAlternatives scope follow others)
            ((registry.oracle limit).visitAlternatives { scope with followDepth := depth } follow'
              others) := by
        induction others with
        | nil => exact .pure .nil
        | cons alternative others iha =>
          rw [List.cons_subset] at hs
          exact (below alternative hs.1 _ _).bind fun _ _ first =>
            (iha hs.2).bind fun _ _ rest => .pure (List.rel_append first rest)
      have decided : (registry.oracle limit).choicePoint { scope with followDepth := depth } id location
          alternatives = (registry.oracle limit).choicePoint scope id location alternatives :=
        Oracle.choicePoint_scope _ id location fun _ _ => rfl
      simp only [Oracle.visit, decided]
      refine (Oracle.Mirrors.refl _).bind fun point _ same => ?_
      subst same
      exact (row alternatives (List.Subset.refl _)).bind fun _ _ rest => .pure (.cons (.refl _ _) rest)
    | repetition kind body guard =>
      have hb : body ∈ (Expansion.repetition kind body guard).children := by simp [Expansion.children]
      have point := @mirrors_loopPoint registry limit scope depth ids id location kind body guard follow
        follow'
      cases guard with
      | none =>
        exact point.bind fun _ _ first => (again kind body hb).bind fun inner inner' _ =>
          (below body hb inner inner').bind fun _ _ rest => .pure (.cons first rest)
      | some guard =>
        have hg : guard ∈ (Expansion.repetition kind body (some guard)).children := by
          simp [Expansion.children]
        exact point.bind fun _ _ first => (again kind body hb).bind fun inner inner' _ =>
          (below guard hg _ _).bind fun _ _ guarded =>
            (below body hb inner inner').bind fun _ _ rest =>
              .pure (List.rel_append (.cons first guarded) rest)
    | lookahead directive =>
      obtain ⟨amount, predicate, _ | guard⟩ := directive
      · exact .pure .nil
      · exact below guard (by simp [Expansion.children]) _ _
    | tryBlock body handlers cleanup => exact below body (by simp [Expansion.children]) _ _
    | _ => exact .pure .nil

/-- What follows a repetition matters as far as its decision looks. -/
theorem loopPoint_congr {id : NodeId} {location : Location} {kind : RepetitionKind} {body : Tree}
    {guard : Option Tree} {reach : Nat} {found : Option Guard}
    (hg : (registry.oracle limit).guard scope (loopDirective? body guard) = .ok (reach, found))
    {follow follow' : FirstSet} (cut : follow.truncate reach = follow'.truncate reach) :
    (registry.oracle limit).loopPoint { scope with followDepth := depth } id location kind body guard
        follow = (registry.oracle limit).loopPoint scope id location kind body guard follow' := by
  rw [loopPoint_eq, loopPoint_eq, hg, (Oracle.guard_scope _ _).trans hg, ok_bind, ok_bind]
  simp only [cut]
  rfl

/-- The walk over a production resolves every node once. -/
theorem nodup_nodes_of_visit {final : Owners} (ho : registry.owners = .ok final)
    {production : Production} (hp : production ∈ registry.productions) {follow : FirstSet}
    {points : List Point}
    (hv : (registry.oracle limit).visit scope follow (registry.tree production.root) = .ok points) :
    (points.map (·.node)).Nodup := by
  rw [nodes_of_visit hv]
  exact ((InProduction.root hp).nodup_ids ho).sublist (Tree.decidedIds_sublist _)

section

variable {final : Owners} (ho : registry.owners = .ok final) (productive : registry.Productive)
  {options : Options} (positive : 0 < options.lookahead) {production : Production}
  (hp : production ∈ registry.productions)

include ho productive positive hp

/-- What a walk over a production decides, another walk over it decides too that keeps what
follows to a greater depth. -/
theorem mem_of_visit_deeper {names : List String}
    (deeper : (options.scope names production.name (registry.tree production.root)).followDepth ≤ depth)
    {points points' : List Point}
    (hv : (registry.oracle limit).visit
      { options.scope names production.name (registry.tree production.root) with followDepth := depth }
      FirstSet.epsilon (registry.tree production.root) = .ok points)
    (hv' : (registry.oracle limit).visit
      (options.scope names production.name (registry.tree production.root))
      FirstSet.epsilon (registry.tree production.root) = .ok points')
    {point : Point} (hm : point ∈ points') : point ∈ points := by
  have deep : 1 ≤ (options.scope names production.name (registry.tree production.root)).followDepth :=
    Nat.le_trans positive (Nat.le_max_right _ _)
  have grounded := grounded_production ho production hp
  obtain ⟨below, inside, decides⟩ := exists_decides hv' hm
  obtain ⟨node, reached, rfl⟩ := grounded.mem_subtrees.mp inside
  obtain ⟨follow, inner, hi, among, shows⟩ :=
    exists_visit_follows ho productive (Nat.le_trans deep deeper) hp reached hv
  obtain ⟨follow', inner', hi', among', shows'⟩ :=
    exists_visit_follows ho productive deep hp reached hv'
  generalize ht : registry.tree node = tree at *
  cases decides with
  | @choice id location alternatives _ h =>
    obtain ⟨first, hf, hi⟩ := bind_eq_ok.mp hi
    obtain ⟨others, _, hi⟩ := bind_eq_ok.mp hi
    cases hi
    rw [Oracle.choicePoint_scope _ id location fun _ _ => rfl, h] at hf
    cases hf
    exact among List.mem_cons_self
  | @repetition id location kind body guard _ other h =>
    obtain ⟨found, _, _, hfound, first, _⟩ := exists_visit_repetition hi
    obtain ⟨found', _, _, hfound', first', _⟩ := exists_visit_repetition hi'
    obtain rfl : point = found' := by
      refine List.inj_on_of_nodup_map (nodup_nodes_of_visit ho hp hv') hm (among' first') ?_
      exact (Decides.repetition other h).node_eq.trans (Decides.repetition follow' hfound').node_eq.symm
    obtain ⟨reach, _, _, hg, _, _⟩ := loopPoint_cases hfound'
    obtain ⟨enough, bound⟩ := loop_depth_bounds positive inside hg
    have cut : follow.truncate reach = follow'.truncate reach :=
      (shows.truncate enough (Nat.le_trans bound deeper)).unique (shows'.truncate enough bound)
    rw [loopPoint_congr hg cut, hfound'] at hfound
    cases hfound
    exact among first

/-- Where every node derives something, a walk over a production decides the same when it keeps
what follows to a greater depth. -/
theorem visit_eq_of_productive {names : List String}
    (deeper : (options.scope names production.name (registry.tree production.root)).followDepth ≤ depth)
    {points points' : List Point}
    (hv : (registry.oracle limit).visit
      { options.scope names production.name (registry.tree production.root) with followDepth := depth }
      FirstSet.epsilon (registry.tree production.root) = .ok points)
    (hv' : (registry.oracle limit).visit
      (options.scope names production.name (registry.tree production.root))
      FirstSet.epsilon (registry.tree production.root) = .ok points') : points = points' := by
  have nodes : points.map (·.node) = points'.map (·.node) :=
    (nodes_of_visit hv).trans (nodes_of_visit hv').symm
  refine List.ext_getElem (by simpa using congrArg List.length nodes) fun i hi hi' => ?_
  refine List.inj_on_of_nodup_map (nodup_nodes_of_visit ho hp hv) (List.getElem_mem hi)
    (mem_of_visit_deeper ho productive positive hp deeper hv hv' (List.getElem_mem hi')) ?_
  have same := List.getElem_of_eq nodes (by simpa using hi)
  rwa [List.getElem_map, List.getElem_map] at same

end

/-- How far the walk over a production keeps what follows: as far as its deepest directive says,
and as far as decisions look by default. -/
def followDepth (registry : Registry) (options : Options) (production : Production) : Nat :=
  max (registry.tree production.root).deepestAmount options.lookahead

/-- The resolved nodes of a production when its walk keeps what follows to the depth. -/
def pointsTo (registry : Registry) (report : Report) (options : Options) (production : Production)
    (depth : Nat) : Except AnalysisError (List Point) :=
  if report.isBlocked production.name then .ok []
  else (registry.oracle options.expansionLimit).visit
    { options.scope report.nullable production.name (registry.tree production.root) with
      followDepth := depth }
    FirstSet.epsilon (registry.tree production.root)

section

variable {options : Options} {report : Report} {production : Production}

/-- The resolved nodes of a blocked production are none, to whatever depth. -/
theorem pointsTo_blocked (h : report.isBlocked production.name = true) (depth : Nat) :
    registry.pointsTo report options production depth = .ok [] := if_pos h

/-- Those of another production are the ones of the walk. -/
theorem pointsTo_unblocked (h : report.isBlocked production.name = false) (depth : Nat) :
    registry.pointsTo report options production depth =
      (registry.oracle options.expansionLimit).visit
        { options.scope report.nullable production.name (registry.tree production.root) with
          followDepth := depth }
        FirstSet.epsilon (registry.tree production.root) :=
  if_neg (by simp [h])

/-- The resolved nodes of a production are found to its own depth. -/
theorem pointsOf_eq_pointsTo (registry : Registry) (report : Report) (options : Options)
    (production : Production) : registry.pointsOf report options (registry.ruleOf production) =
      registry.pointsTo report options production (registry.followDepth options production) := rfl

/-- Two walks over a production mirror each other, to whatever depths they keep what follows. -/
theorem mirrors_pointsTo (hg : registry.Grounded production.root) (depth other : Nat) :
    (registry.oracle options.expansionLimit).Mirrors registry.Grounded depth
      (List.Forall₂ (Point.Matches production.name))
      (registry.pointsTo report options production depth)
      (registry.pointsTo report options production other) := by
  cases hb : report.isBlocked production.name with
  | true =>
    rw [pointsTo_blocked hb, pointsTo_blocked hb]
    exact .pure .nil
  | false =>
    rw [pointsTo_unblocked hb, pointsTo_unblocked hb]
    exact @mirrors_visit registry options.expansionLimit
      { options.scope report.nullable production.name (registry.tree production.root) with
        followDepth := depth }
      other registry.Grounded (registry.tree production.root) hg.within FirstSet.epsilon FirstSet.epsilon

/-- Where every node derives something, a production has the same resolved nodes to its own depth
and to a greater one. -/
theorem pointsTo_eq_of_productive {final : Owners} (ho : registry.owners = .ok final)
    (productive : registry.Productive) (positive : 0 < options.lookahead)
    (hp : production ∈ registry.productions) (deeper : registry.followDepth options production ≤ depth)
    {points points' : List Point}
    (hv : registry.pointsTo report options production depth = .ok points)
    (hv' : registry.pointsTo report options production (registry.followDepth options production) =
      .ok points') : points = points' := by
  cases hb : report.isBlocked production.name with
  | true =>
    rw [pointsTo_blocked hb] at hv hv'
    exact Except.ok.inj (hv.symm.trans hv')
  | false =>
    rw [pointsTo_unblocked hb] at hv hv'
    exact visit_eq_of_productive ho productive positive hp deeper hv hv'

/-- The resolved nodes of a grammar are those of its productions, each to its own depth. -/
theorem points_eq_pointsTo : registry.points report options =
    ((registry.productions.mapM fun production =>
      registry.pointsTo report options production (registry.followDepth options production)) >>=
        fun parts => .ok parts.flatten) := by
  rw [points_eq]
  simp only [pointsOf_eq_pointsTo]
  cases registry.productions.mapM fun production =>
    registry.pointsTo report options production (registry.followDepth options production) <;> rfl

/-- Where depths differ for one production only, the walks over all of them mirror each other when
those over that one do. -/
theorem mirrors_productions {depths depths' : Production → Nat}
    (others : ∀ other ∈ registry.productions, other ≠ production → depths other = depths' other)
    {related : List Point → List Point → Prop} (same : ∀ points, related points points)
    (own : (registry.oracle limit).Mirrors ids depth related
      (registry.pointsTo report options production (depths production))
      (registry.pointsTo report options production (depths' production))) :
    (registry.oracle limit).Mirrors ids depth (List.Forall₂ related)
      (registry.productions.mapM fun production =>
        registry.pointsTo report options production (depths production))
      (registry.productions.mapM fun production =>
        registry.pointsTo report options production (depths' production)) := by
  refine .mapM fun other hp => ?_
  by_cases this : other = production
  · exact this ▸ own
  · rw [others other hp this]
    exact (Oracle.Mirrors.refl _).mono fun points _ _ _ equal => equal ▸ same points

end

end Registry

end BoundedLookahead
