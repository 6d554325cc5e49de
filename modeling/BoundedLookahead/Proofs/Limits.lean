import BoundedLookahead.Proofs.DecisionPoints
import BoundedLookahead.Proofs.Directives
import BoundedLookahead.Proofs.Inheritance

/-!
# The expansion limit

The limit on first sets decides whether an analysis succeeds and nothing else. Two
analyses that differ only in it go in lockstep until a set outgrows the smaller limit.
So where the smaller limit suffices, the greater one gives the same analysis, and where
it does not, a set beyond it is what the analysis stopped at.
-/

namespace BoundedLookahead

/-- The set of the syntactic guard, if there is one. -/
def Guard.sets (guard : Option Guard) : List FirstSet :=
  (guard.bind Guard.syntactic).toList.map Prod.snd

/-- The first sets that a decision holds, those of its guards included. -/
def Decision.sets : Decision → List FirstSet
  | .choice decision => decision.entries.flatMap fun entry => entry.lookahead :: Guard.sets entry.guard
  | .loop decision => decision.lookahead :: Guard.sets decision.guard

namespace Registry

variable {registry : Registry} {id : NodeId} {k limit : Nat} {scope : Scope} {set : FirstSet}

/-- A first set that is found is within the limit. -/
theorem Grounded.size_firstOf_le (h : registry.Grounded id)
    (hf : registry.firstOf limit id k = .ok set) : set.size ≤ limit := by
  rw [h.firstOf_eq] at hf
  obtain ⟨sets, _, hf⟩ := bind_eq_ok.mp hf
  exact h.size_firstAt_le hf

/-- The set is the first set of a grounded node at some depth. -/
def Found (registry : Registry) (limit : Nat) (set : FirstSet) : Prop :=
  ∃ id k, registry.Grounded id ∧ registry.firstOf limit id k = .ok set

/-- The set of a guard is the first set of its expansion. -/
theorem Gives.found {directive : Option (Directive Tree)} {depth : Nat} {guard : Option Guard}
    (gives : registry.Gives limit scope directive depth guard)
    (below : ∀ given, directive = some given → ∀ tree, given.guard = some tree →
      tree.Within registry.Grounded) : ∀ set ∈ Guard.sets guard, registry.Found limit set := by
  intro set hs
  obtain ⟨⟨node, other⟩, hm, rfl⟩ := List.mem_map.mp hs
  obtain ⟨found, hf, hsyn⟩ := Option.bind_eq_some_iff.mp (Option.mem_toList.mp hm)
  obtain ⟨given, hd, tree, ht, rfl, hset⟩ := gives.syntactic_eq found hf node other hsyn
  exact ⟨tree.id, depth, (below given hd tree ht).root, hset⟩

/-- Every set in the decision of a resolved node is the first set of a node. -/
theorem Decides.found {tree : Tree} (inside : tree.Within registry.Grounded) {point : Point}
    (h : registry.Decides limit scope tree point) :
    ∀ set ∈ point.decision.sets, registry.Found limit set := by
  have children {child : Tree} (hc : child ∈ tree.children) : child.Within registry.Grounded :=
    inside.child hc
  cases h with
  | @choice id location alternatives point h =>
    obtain ⟨entries, warnings, conflicts, depth, he, _, rfl⟩ := choicePoint_eq_ok h
    intro set hs
    obtain ⟨entry, hm, hs⟩ := List.mem_flatMap.mp hs
    obtain ⟨alternative, ha, tests⟩ := exists_tests he hm
    rcases List.mem_cons.mp hs with rfl | hs
    · exact ⟨alternative.id, entry.depth, (children ha).root, tests.first⟩
    · exact (gives_of_guard tests.guard).found (fun given hg tree ht => (children ha).leading hg ht) set hs
  | @repetition id location kind body guard point follow h =>
    obtain ⟨depth, found, first, warnings, hg, hset, rfl⟩ := loopPoint_eq_ok h
    have hb : body.Within registry.Grounded :=
      children (by simp [Tree.children, Expansion.children])
    have explicit : ∀ tree ∈ guard, tree.Within registry.Grounded := by
      intro tree ht
      obtain rfl := Option.mem_def.mp ht
      exact children (by simp [Tree.children, Expansion.children])
    intro set hs
    rcases List.mem_cons.mp hs with rfl | hs
    · exact ⟨body.id, depth, hb.root, hset⟩
    · exact (gives_of_guard hg).found (fun given hd tree ht => hb.loopGuard explicit hd ht) set hs

section

variable {σ τ : Type} {options : Options} {report : Report}

/-- No set in a decision of an analysis is beyond the limit. -/
theorem size_le_of_analyze {state : σ} {analysis : Analysis}
    (analyzed : (registry.analyze options state).result = .ok analysis) {decision : Decision}
    (decided : analysis.decision? id = some decision) :
    ∀ set ∈ decision.sets, set.size ≤ options.expansionLimit := by
  obtain ⟨_, ⟨final, ho⟩, report, _, ⟨_, points, hp, rfl⟩ | ⟨_, rfl⟩⟩ := analyze_eq_ok analyzed
  swap
  · cases decided
  have grounded := grounded_production ho
  obtain ⟨point, hm, rfl, rfl⟩ := exists_point_of_get? decided
  obtain ⟨production, hprod, _, reached, decides⟩ := exists_production_decides grounded hp hm
  intro set hs
  obtain ⟨node, k, hg, hf⟩ :=
    decides.found ((grounded production hprod).of_reaches reached).within set hs
  exact hg.size_firstOf_le hf

/-- With a greater limit the same decisions are made, where they are made at all. -/
theorem points_widening
    (grounded : ∀ production ∈ registry.productions, registry.Grounded production.root)
    (hr : registry.validated options = .ok report) (hl : options.expansionLimit ≤ limit) :
    (widening options.expansionLimit).relates
      (registry.points report { options with expansionLimit := limit })
      (registry.points report options) := by
  obtain ⟨names, hn, hr⟩ := bind_eq_ok.mp hr
  obtain ⟨found, _, hr⟩ := bind_eq_ok.mp hr
  cases hr
  rw [points_eq, points_eq]
  refine (widening options.expansionLimit).map ?_ List.flatten
  refine (widening options.expansionLimit).mapM fun production hp => ?_
  exact (PartOf.refl registry).pointsOf grounded hn hn hl hp rfl rfl rfl

/-- The limit of first sets only ever turns success into an error. A greater limit
leaves a successful analysis as it is, and all sets in its decisions are within the
limit. Where a greater limit makes an analysis succeed, the analysis stopped at a set
beyond the limit. -/
theorem analyze_expansionLimit (registry : Registry) {options : Options} {limit : Nat}
    (valid : options.check = .ok ()) (hl : options.expansionLimit ≤ limit) (state : σ) (state' : τ) :
    (∀ analysis, (registry.analyze options state).result = .ok analysis →
      (registry.analyze { options with expansionLimit := limit } state').result = .ok analysis ∧
      ∀ id decision, analysis.decision? id = some decision →
        ∀ set ∈ decision.sets, set.size ≤ options.expansionLimit) ∧
    ∀ analysis, (registry.analyze { options with expansionLimit := limit } state').result = .ok analysis →
      ∀ cause, (registry.analyze options state).result = .error cause →
        ∃ node depth size, cause = .limitExceeded node depth size options.expansionLimit ∧
          options.expansionLimit < size := by
  have positive := Options.check_eq_ok_iff.mp valid
  have valid' : ({ options with expansionLimit := limit } : Options).check = .ok () :=
    Options.check_eq_ok_iff.mpr ⟨positive.1, Nat.lt_of_lt_of_le positive.2 hl⟩
  have same : registry.validated { options with expansionLimit := limit } =
      registry.validated options := validated_congr rfl rfl
  constructor
  · intro analysis analyzed
    refine ⟨?_, fun id decision decided => size_le_of_analyze analyzed decided⟩
    obtain ⟨_, ⟨final, ho⟩, report, hr, ⟨free, points, hp, rfl⟩ | ⟨recursive, rfl⟩⟩ :=
      analyze_eq_ok analyzed
    · have hp' := (points_widening (grounded_production ho) hr hl).1 points hp
      exact analyze_resolved valid' ho (same.trans hr) free hp' state'
    · exact analyze_unresolved valid' ho (same.trans hr) recursive state'
  · intro analysis analyzed cause failed
    obtain ⟨_, ⟨final, ho⟩, report, hr, _⟩ := analyze_eq_ok analyzed
    rw [same] at hr
    rw [analyze_result, valid, ho, hr, ok_bind, ok_bind, ok_bind] at failed
    split at failed
    · rcases bind_eq_error.mp failed with hp | ⟨points, _, hp⟩
      · obtain ⟨node, depth, size, he, hs⟩ :=
          (points_widening (grounded_production ho) hr hl).2 cause hp
        exact ⟨node, depth, size, he, hs⟩
      · cases hp
    · cases failed

end

/-- The grammar `Digits -> (a | b | c)*`. -/
def threeDigits : Registry where
  nodes := #[⟨.terminal "a", {}⟩, ⟨.terminal "b", {}⟩, ⟨.terminal "c", {}⟩, ⟨.choice [0, 1, 2], {}⟩,
    ⟨.repetition .zeroOrMore 3 none, {}⟩]
  productions := [{ name := "Digits", root := 4 }]
  tokens := ["a", "b", "c"]

/-- A limit of three words suffices for that grammar, a limit of two does not. -/
theorem analyze_threeDigits : ∃ analysis decision cause,
    (threeDigits.analyze { expansionLimit := 3 } ()).result = .ok analysis ∧
      (threeDigits.analyze { expansionLimit := 9 } ()).result = .ok analysis ∧
      analysis.decision? 4 = some (.loop decision) ∧ decision.lookahead.size ≤ 3 ∧
      (threeDigits.analyze { expansionLimit := 2 } ()).result = .error cause ∧
      ∃ node depth size, cause = .limitExceeded node depth size 2 ∧ 2 < size := by
  have enough : (threeDigits.analyze { expansionLimit := 3 } ()).result.toOption.map (fun analysis =>
      (analysis.decisions.loop? 4).isSome) = some true := by
    decide +kernel
  have few : (threeDigits.analyze { expansionLimit := 2 } ()).result.toOption.isNone = true := by
    decide +kernel
  obtain ⟨analysis, ha, found⟩ := Option.map_eq_some_iff.mp enough
  obtain ⟨decision, hd⟩ := Option.isSome_iff_exists.mp found
  have analyzed := toOption_eq_some.mp ha
  obtain ⟨larger, sets⟩ := (@analyze_expansionLimit Unit Unit threeDigits { expansionLimit := 3 } 9 rfl
    (by decide) () ()).1 analysis analyzed
  have decided : analysis.decision? 4 = some (.loop decision) := DecisionTable.loop?_eq_some.mp hd
  obtain ⟨cause, failed⟩ : ∃ cause,
      (threeDigits.analyze { expansionLimit := 2 } ()).result = .error cause := by
    cases hr : (threeDigits.analyze { expansionLimit := 2 } ()).result with
    | error cause => exact ⟨cause, rfl⟩
    | ok other =>
      rw [hr] at few
      cases few
  have beyond := (@analyze_expansionLimit Unit Unit threeDigits { expansionLimit := 2 } 3 rfl (by decide)
    () ()).2 analysis analyzed cause failed
  exact ⟨analysis, decision, cause, analyzed, larger, decided,
    sets 4 _ decided _ List.mem_cons_self, failed, beyond⟩

end Registry

end BoundedLookahead
