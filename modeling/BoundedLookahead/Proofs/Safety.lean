import BoundedLookahead.Proofs.Exploration
import BoundedLookahead.Proofs.Stages

/-!
# Safety of an analysis

An analysis checks the ownership of the arena once. Everything after it rests on
that: the trees that are walked are finite and hold no reference outside the arena,
and every loop over the productions is a run to its end. So an analysis fails only
for a bad setting, for an arena that is no forest, or for a first set that outgrows
its limit.
-/

namespace BoundedLookahead

/-- An outcome is the given one and fails only by outgrowing the limit. -/
def outgrowing (limit : Nat) : Simulation (Except AnalysisError) where
  relates outcome given := outcome = given ∧ ∀ cause, given = .error cause →
    ∃ node depth size, cause = .limitExceeded node depth size limit
  pure a := ⟨rfl, nofun⟩
  bind {α β x y f g} hx hf := by
    obtain ⟨rfl, hx⟩ := hx
    cases x with
    | error cause =>
      refine ⟨rfl, fun other he => ?_⟩
      cases he
      exact hx cause rfl
    | ok a => exact hf a rfl

namespace Registry

variable {σ : Type} {registry : Registry} {id : NodeId} {options : Options} {report : Report}
  {limit : Nat} {cause : AnalysisError}

/-- The nodes of the tree of a grounded node are grounded. -/
theorem Grounded.within (h : registry.Grounded id) :
    (registry.tree id).Within registry.Grounded := by
  intro below hb
  obtain ⟨child, hr, rfl⟩ := h.mem_subtrees.mp hb
  have grounded := h.of_reaches hr
  rwa [grounded.tree_id]

/-- The first set of a grounded node fails only by outgrowing the limit. -/
theorem Grounded.outgrows_firstOf
    (grounded : ∀ production ∈ registry.productions, registry.Grounded production.root)
    (h : registry.Grounded id) {k : Nat} (hf : registry.firstOf limit id k = .error cause) :
    ∃ node depth size, cause = .limitExceeded node depth size limit := by
  obtain ⟨node, size, rfl, _⟩ := h.firstOf_error grounded hf
  exact ⟨node, k, size, rfl⟩

/-- Resolving decisions on grounded productions fails only by outgrowing the limit. -/
theorem points_error
    (grounded : ∀ production ∈ registry.productions, registry.Grounded production.root)
    (h : registry.points report options = .error cause) :
    ∃ node depth size, cause = .limitExceeded node depth size options.expansionLimit := by
  have simulates : (registry.oracle options.expansionLimit).Simulates
      (outgrowing options.expansionLimit) registry.Grounded registry options.expansionLimit :=
    ⟨fun id hid k => ⟨rfl, fun cause => hid.outgrows_firstOf grounded⟩, fun note => ⟨rfl, nofun⟩⟩
  refine (simulates.resolveRules report options report.nullable fun rule hr => ?_).2 cause h
  obtain ⟨production, hp, rfl⟩ := mem_rules.mp hr
  exact (grounded production hp).within

/-- Every walk over the trees of a grammar is finite and stays in the arena, and every
loop over its productions is a run to its end. -/
structure WalksEnd (registry : Registry) (limit : Nat) : Prop where
  /-- Below a definition lie finitely many nodes, all of the arena. -/
  grounded : ∀ definition ∈ registry.definitions, registry.Grounded definition.root
  /-- The trees that are walked hold no reference outside the arena. -/
  whole : ∀ rule ∈ registry.rules, rule.tree.Whole
  /-- The sweeps for nullable productions succeed and end. -/
  nullable : ∃ names, registry.nullableNames = .ok names ∧ Closing registry.rules [] (.ok names)
  /-- The search for cycles of left calls ends. -/
  explored : ∀ names, CycleSearch.Explored (registry.leftCallGraph names) [] registry.names {}
    (CycleSearch.run (registry.leftCallGraph names))
  /-- Every cycle it reports has an entry production. -/
  entry : ∀ names, ∀ cycle ∈ registry.leftRecursiveCycles names, cycle ≠ []
  /-- The search for what the start reaches ends. -/
  followed : ∀ start,
    CallGraph.Followed registry.callGraph [start] [start] (registry.reachable start)
  /-- Solving for first sets ends at every depth. -/
  solved : ∀ k, Rounds registry.rules k limit 0 registry.initialSets (registry.solveFirst limit k)

/-- Where ownership is in order, everything ends. -/
theorem walksEnd_of_owners {final : Owners} (h : registry.owners = .ok final) (limit : Nat) :
    registry.WalksEnd limit := by
  have grounded := grounded_production h
  have closed names := @graphOf_closed registry (Tree.leftCalls names)
  refine ⟨fun definition hd => grounded_of_owners h hd, fun rule hr => ?_, ?_, fun names => ?_,
    fun names cycle hm he => ?_, registry.reachable_followed, fun k => solveFirst_rounds grounded⟩
  · obtain ⟨production, hp, rfl⟩ := mem_rules.mp hr
    exact (grounded production hp).whole
  · obtain ⟨names, hn⟩ := exists_nullableNames grounded
    exact ⟨names, hn, hn ▸ registry.nullableNames_closing⟩
  · have explored := CycleSearch.run_explored (closed names)
    rwa [names_graphOf] at explored
  · obtain ⟨first, _, hf, _⟩ := (CycleSearch.roundTrip_of_mem_cycles (closed names) cycle hm).closed
    rw [he] at hf
    cases hf

/-- An analysis that is refused for its settings or its ownership has not begun to
validate. -/
theorem notes_analyze_of_owners (h : registry.owners = .error cause) (state : σ) :
    (registry.analyze options state).notes = [] := by
  unfold analyze
  cases options.check with
  | error other => rfl
  | ok _ =>
    rw [h]
    rfl

/-- An analysis is safe. It ends with its result or refuses a setting, a reference to a
node that does not exist, a second reference to a node, or a first set beyond the limit.
The ownership check is a run to its end. Where it refuses nothing, every walk after it is
finite and stays in the arena, and every loop ends; otherwise no walk has begun. The
engine has kept the level of a depth when it goes on with it. -/
theorem analyze_safe (registry : Registry) (options : Options) (state : σ) :
    ((∃ analysis, (registry.analyze options state).result = .ok analysis) ∨
      ∃ cause, (registry.analyze options state).result = .error cause ∧
        ((∃ fault, cause = .invalidOption fault) ∨ (∃ id, cause = .unknownNode id) ∨
          (∃ id, cause = .sharedNode id) ∨
          ∃ node depth size, cause = .limitExceeded node depth size options.expansionLimit)) ∧
      OwnershipRun registry registry.definitions [] ∅ registry.owners ∧
      ((∃ final, registry.owners = .ok final) ∧ registry.WalksEnd options.expansionLimit ∨
        (∃ cause, registry.owners = .error cause) ∧ (registry.analyze options state).notes = []) ∧
      ∀ (engine : Engine) (k : Nat) (found : Level), (Engine.level k engine).result = .ok found →
        (Engine.level k engine).state.level? k = some found := by
  refine ⟨?_, registry.owners_run, ?_, fun engine k found h => Engine.level?_of_level h⟩
  · cases hr : (registry.analyze options state).result with
    | ok analysis => exact .inl ⟨analysis, rfl⟩
    | error cause =>
      refine .inr ⟨cause, rfl, ?_⟩
      rw [analyze_result] at hr
      rcases bind_eq_error.mp hr with hc | ⟨_, hc, hr⟩
      · unfold Options.check at hc
        split at hc
        · cases hc
          exact .inl ⟨_, rfl⟩
        · cases hc
      rcases bind_eq_error.mp hr with ho | ⟨final, ho, hr⟩
      · obtain ⟨id, hi⟩ := registry.owners_run.error ho
        exact .inr (hi.imp (fun hi => ⟨id, hi⟩) fun hi => .inl ⟨id, hi⟩)
      have grounded := grounded_production ho
      obtain ⟨nullable, found, _, _, hv⟩ := exists_validated options grounded
      rw [hv, ok_bind] at hr
      split at hr
      · rcases bind_eq_error.mp hr with hp | ⟨points, _, hr⟩
        · exact .inr (.inr (.inr (points_error grounded hp)))
        · cases hr
      · cases hr
  · cases ho : registry.owners with
    | ok final => exact .inl ⟨⟨final, rfl⟩, walksEnd_of_owners ho _⟩
    | error cause => exact .inr ⟨⟨cause, rfl⟩, notes_analyze_of_owners ho state⟩

end Registry

end BoundedLookahead
