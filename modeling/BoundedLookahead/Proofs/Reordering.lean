import BoundedLookahead.Proofs.Inheritance
import BoundedLookahead.Proofs.SinglePoints
import BoundedLookahead.Proofs.Statuses

/-!
# The order of productions

Grammars that differ in the order of their productions are parts of each other. So an
analysis of one finds in each production what the analysis of the other finds there, and
only the order of the reports tells them apart. The start production has to be named,
since it is the first production otherwise.
-/

namespace BoundedLookahead

/-- Two analyses say the same, but for the order of what they report. -/
structure Analysis.Alike (analysis other : Analysis) : Prop where
  /-- Decisions were resolved in both or in neither. -/
  lookaheadRan : analysis.lookaheadRan = other.lookaheadRan
  /-- The same may be done with each production. -/
  status : ∀ name, analysis.status? name = other.status? name
  /-- Each node has the same decision. -/
  decision : ∀ id, analysis.decision? id = other.decision? id
  /-- The same problems are reported where decisions were resolved. -/
  diagnostics : analysis.lookaheadRan = true →
    analysis.diagnostics.items.Perm other.diagnostics.items

/-- Parts that agree make analyses that say the same. -/
theorem Analysis.Alike.of_parts {diagnostics diagnostics' : Diagnostics}
    {decisions decisions' : DecisionTable} {status status' : List (String × ProductionStatus)}
    {ran : Bool} (same : ∀ name, status.lookup name = status'.lookup name)
    (decided : ∀ id, decisions.get? id = decisions'.get? id)
    (reported : ran = true → diagnostics.items.Perm diagnostics'.items) :
    (⟨diagnostics, decisions, status, ran⟩ : Analysis).Alike ⟨diagnostics', decisions', status', ran⟩ :=
  ⟨rfl, same, decided, reported⟩

namespace Registry

/-- Two grammars differ in nothing but the order of their productions. -/
structure Reorders (first second : Registry) : Prop where
  /-- They have one arena. -/
  nodes : first.nodes = second.nodes
  /-- They declare the same tokens. -/
  tokens : ∀ kind, first.isDeclared kind = second.isDeclared kind
  /-- They have the same productions. -/
  productions : first.productions.Perm second.productions
  /-- They have the same later definitions. -/
  duplicates : first.duplicates = second.duplicates

namespace Reorders

/-- Productions of different names make the same grammar in every order. -/
theorem of_foldl {base : Registry} (fresh : base.productions = []) {productions productions' : List Production}
    (same : productions.Perm productions') (distinct : (productions.map (·.name)).Nodup) :
    (productions.foldl addProduction base).Reorders (productions'.foldl addProduction base) := by
  have added (productions : List Production) (registry : Registry)
      (new : ((registry.productions ++ productions).map (·.name)).Nodup) :
      (productions.foldl addProduction registry).nodes = registry.nodes ∧
      (productions.foldl addProduction registry).tokens = registry.tokens ∧
      (productions.foldl addProduction registry).productions = registry.productions ++ productions ∧
      (productions.foldl addProduction registry).duplicates = registry.duplicates := by
    induction productions generalizing registry with
    | nil => simp
    | cons production productions ih =>
      have unused : production.name ∉ registry.productions.map (·.name) := by
        rw [List.map_append, List.nodup_append] at new
        exact fun used => new.2.2 _ used _ List.mem_cons_self rfl
      have behind := addProduction_productions unused
      have rest := ih (registry.addProduction production) (by simpa [behind] using new)
      simpa [behind, addProduction_duplicates unused] using rest
  have distinct' : (productions'.map (·.name)).Nodup := (same.map _).nodup_iff.mp distinct
  obtain ⟨nodes, tokens, all, later⟩ := added productions base (by simpa [fresh] using distinct)
  obtain ⟨nodes', tokens', all', later'⟩ := added productions' base (by simpa [fresh] using distinct')
  refine ⟨nodes.trans nodes'.symm, fun kind => ?_, ?_, later.trans later'.symm⟩
  · simp only [isDeclared, tokens, tokens']
  · rw [all, all', fresh]
    exact same

variable {first second : Registry} (h : first.Reorders second) {options : Options} {name : String}

include h

/-- Neither order comes first. -/
theorem symm : second.Reorders first :=
  ⟨h.nodes.symm, fun kind => (h.tokens kind).symm, h.productions.symm, h.duplicates.symm⟩

/-- A reordered grammar is part of the grammar. -/
theorem partOf : first.PartOf second where
  productions := h.productions.subperm
  duplicates := h.duplicates
  nodes id _ := by rw [h.nodes]
  calls id name args _ _ defined := by
    rw [isDefined_iff] at defined ⊢
    exact (h.productions.map _).mem_iff.mpr defined
  tokens := h.tokens

/-- The same names are defined. -/
theorem isDefined_eq (name : String) : first.isDefined name = second.isDefined name :=
  Bool.eq_iff_iff.mpr ⟨h.partOf.isDefined, h.symm.partOf.isDefined⟩

/-- The same production has a name. -/
theorem production?_eq (name : String) : first.production? name = second.production? name :=
  h.partOf.production?_eq (h.isDefined_eq name)

/-- Later definitions are reported alike. -/
theorem duplicateDiagnostics_eq : first.duplicateDiagnostics = second.duplicateDiagnostics := by
  simp only [duplicateDiagnostics, h.duplicates, h.production?_eq]

/-- A named start production is reported alike. -/
theorem startDiagnostics_eq : first.startDiagnostics options = second.startDiagnostics options := by
  simp only [startDiagnostics, h.isDefined_eq]

/-- A production has the same status when the same was found in it. -/
theorem status?_eq {names names' : List String} {found found' : List (Production × List Finding)}
    (hf : first.foundIn options names = .ok found) (same : found.Perm found') (name : String) :
    (first.reportOf options names found).status? name =
      (second.reportOf options names' found').status? name := by
  rw [status?_reportOf, status?_reportOf, h.partOf.statusOf_eq,
    find?_perm_of_nodup _ (nodup_names_foundIn hf) same]

section

variable (grounded : ∀ production ∈ first.productions, first.Grounded production.root)

include grounded

/-- A named start reaches the same productions. -/
theorem unreachableDiagnostics_perm (named : options.start.isSome = true) :
    (first.unreachableDiagnostics options).Perm (second.unreachableDiagnostics options) := by
  obtain ⟨start, hs⟩ := Option.isSome_iff_exists.mp named
  have starts : first.start? options = second.start? options := by
    simp only [start?, hs, h.isDefined_eq]
  unfold unreachableDiagnostics
  rw [← starts]
  cases ho : first.start? options with
  | none => exact .refl _
  | some start =>
    have defined := isDefined_of_start? ho
    have reached (name : String) : name ∈ first.reachable start ↔ name ∈ second.reachable start :=
      (h.symm.partOf.mem_reachable grounded ((h.isDefined_eq start).symm.trans defined)).symm
    have kept : first.unreachable start = first.productions.filter fun production =>
        !(second.reachable start).contains production.name := by
      refine List.filter_congr fun production _ => ?_
      rw [Bool.eq_iff_iff]
      simp [reached]
    simp only [kept]
    exact (h.productions.filter _).map _

variable {names names' : List String} (hn : first.nullableNames = .ok names)
  (hn' : second.nullableNames = .ok names')

include hn hn'

/-- The same is found in the productions. -/
theorem exists_foundIn {found : List (Production × List Finding)}
    (hf : first.foundIn options names = .ok found) :
    ∃ found', second.foundIn options names' = .ok found' ∧ found.Perm found' := by
  rw [Registry.foundIn_eq] at hf
  rw [h.symm.partOf.foundIn_eq grounded hn' hn]
  exact mapM_perm h.productions hf

/-- The same nodes are resolved. -/
theorem exists_points {report report' : Report} (known : report.nullable = names)
    (known' : report'.nullable = names')
    (blocked : ∀ name, report.isBlocked name = report'.isBlocked name) {points : List Point}
    (hp : first.points report options = .ok points) :
    ∃ points', second.points report' options = .ok points' ∧ points.Perm points' := by
  obtain ⟨parts, found, rfl⟩ := Registry.points_eq_ok.mp hp
  obtain ⟨parts', hp', same⟩ := mapM_perm h.productions found
  refine ⟨parts'.flatten, ?_, same.flatten⟩
  exact h.symm.partOf.points_eq_ok grounded hn' hn known' known
    (fun production _ => (blocked production.name).symm) hp'

/-- Left recursion is found in both or in neither. -/
theorem isLeftRecursionFree_eq (found found' : List (Production × List Finding)) :
    (first.reportOf options names found).isLeftRecursionFree =
      (second.reportOf options names' found').isLeftRecursionFree := by
  have grounded' := h.symm.partOf.grounded grounded
  rw [Bool.eq_iff_iff]
  simp only [Report.isLeftRecursionFree, reportOf, List.isEmpty_iff]
  exact ⟨h.symm.partOf.leftRecursiveCycles_eq_nil grounded hn' hn,
    h.partOf.leftRecursiveCycles_eq_nil grounded' hn hn'⟩

omit hn hn' in
/-- Without left recursion the same problems are reported. -/
theorem diagnostics_perm (named : options.start.isSome = true)
    {found found' : List (Production × List Finding)} (same : found.Perm found')
    (free : (first.reportOf options names found).isLeftRecursionFree = true)
    (free' : (second.reportOf options names' found').isLeftRecursionFree = true) :
    (first.reportOf options names found).diagnostics.items.Perm
      (second.reportOf options names' found').diagnostics.items := by
  have none : first.leftRecursiveCycles names = [] := List.isEmpty_iff.mp free
  have none' : second.leftRecursiveCycles names' = [] := List.isEmpty_iff.mp free'
  have unreachable := h.unreachableDiagnostics_perm grounded named
  simp only [reportOf, none, none', List.map_nil, List.nil_append, h.duplicateDiagnostics_eq,
    h.startDiagnostics_eq]
  exact ((List.Perm.refl _).append (same.flatMap_right _)).append unreachable

end

end Reorders

section

variable {σ τ : Type} {first second : Registry} {options : Options}

/-- Where the analysis of a grammar succeeds, so does that of the reordered one, and it
says the same. -/
theorem Reorders.exists_analyze (h : first.Reorders second) (named : options.start.isSome = true)
    {state : σ} {analysis : Analysis} (analyzed : (first.analyze options state).result = .ok analysis)
    (state' : τ) :
    ∃ other, (second.analyze options state').result = .ok other ∧ analysis.Alike other := by
  obtain ⟨hc, ⟨final, ho⟩, report, hr, outcome⟩ := analyze_eq_ok analyzed
  obtain ⟨final', ho'⟩ := h.symm.partOf.exists_owners ho
  have grounded := grounded_production ho
  obtain ⟨names, found, hn, hf, hv⟩ := exists_validated options grounded
  obtain ⟨names', found', hn', hf', hv'⟩ := exists_validated options (grounded_production ho')
  obtain ⟨listed, hl, same⟩ := h.exists_foundIn grounded hn hn' hf
  obtain rfl : found' = listed := Except.ok.inj (hf'.symm.trans hl)
  obtain rfl : report = first.reportOf options names found := Except.ok.inj (hr.symm.trans hv)
  have recursion : (first.reportOf options names found).isLeftRecursionFree =
      (second.reportOf options names' found').isLeftRecursionFree :=
    h.isLeftRecursionFree_eq grounded hn hn' found found'
  have status (name : String) : (first.reportOf options names found).status? name =
      (second.reportOf options names' found').status? name := h.status?_eq hf same name
  rcases outcome with ⟨free, points, hp, rfl⟩ | ⟨recursive, rfl⟩
  · have free' := recursion.symm.trans free
    have blocked (name : String) : (first.reportOf options names found).isBlocked name =
        (second.reportOf options names' found').isBlocked name := by
      simp only [Report.isBlocked, status]
    obtain ⟨points', hp', resolved⟩ := h.exists_points grounded hn hn' rfl rfl blocked hp
    refine ⟨_, analyze_resolved hc ho' hv' free' hp' state',
      .of_parts status (fun id => ?_) fun _ => ?_⟩
    · refine Option.ext fun decision => ?_
      rw [get?_ofPoints_iff (nodup_points ho hp), get?_ofPoints_iff (nodup_points ho' hp')]
      simp only [resolved.mem_iff]
    · exact (h.diagnostics_perm grounded named same free free').append (resolved.flatMap_right _)
  · have recursive' := recursion.symm.trans recursive
    exact ⟨_, analyze_unresolved hc ho' hv' recursive' state',
      .of_parts status (fun _ => rfl) fun ran => by cases ran⟩

/-- The order of the productions does not matter to an analysis whose start production is
named. It succeeds in every order or in none, and then says the same but for the order of
what it reports. -/
theorem analyze_reordered (h : first.Reorders second) (named : options.start.isSome = true)
    (state : σ) (state' : τ) :
    ((∃ analysis, (first.analyze options state).result = .ok analysis) ↔
      ∃ other, (second.analyze options state').result = .ok other) ∧
    ∀ analysis other, (first.analyze options state).result = .ok analysis →
      (second.analyze options state').result = .ok other → analysis.Alike other := by
  refine ⟨⟨?_, ?_⟩, fun analysis other analyzed analyzed' => ?_⟩
  · rintro ⟨analysis, analyzed⟩
    obtain ⟨other, analyzed', _⟩ := h.exists_analyze named analyzed state'
    exact ⟨other, analyzed'⟩
  · rintro ⟨other, analyzed'⟩
    obtain ⟨analysis, analyzed, _⟩ := h.symm.exists_analyze named analyzed' state
    exact ⟨analysis, analyzed⟩
  · obtain ⟨found, hf, alike⟩ := h.exists_analyze named analyzed state'
    obtain rfl : other = found := Except.ok.inj (analyzed'.symm.trans hf)
    exact alike

end

/-- The productions `S -> A | a`, `A -> a`, `B -> a` and `C -> a`. -/
def fourRules : List Production :=
  [{ name := "S", root := 2 }, { name := "A", root := 3 }, { name := "B", root := 4 },
    { name := "C", root := 5 }]

/-- The nodes of these productions, without the productions. -/
def fourTrees : Registry where
  nodes := #[⟨.nonTerminal "A" [], {}⟩, ⟨.terminal "a", {}⟩, ⟨.choice [0, 1], {}⟩,
    ⟨.terminal "a", {}⟩, ⟨.terminal "a", {}⟩, ⟨.terminal "a", {}⟩]
  tokens := ["a"]

/-- The four productions backwards give the same analysis, with two reports the other way
round. -/
theorem analyze_fourRules : ∃ analysis other,
    ((fourRules.foldl addProduction fourTrees).analyze { start := some "S" } ()).result = .ok analysis ∧
      ((fourRules.reverse.foldl addProduction fourTrees).analyze { start := some "S" } ()).result =
        .ok other ∧
      analysis.Alike other ∧ analysis.lookaheadRan = true ∧
      analysis.diagnostics.items.map (·.production) = ["B", "C", "S"] ∧
      other.diagnostics.items.map (·.production) = ["C", "B", "S"] := by
  have forwards : ((fourRules.foldl addProduction fourTrees).analyze { start := some "S" }
      ()).result.toOption.map (fun analysis => (analysis.lookaheadRan,
        analysis.diagnostics.items.map (·.production))) = some (true, ["B", "C", "S"]) := by
    decide +kernel
  have backwards : ((fourRules.reverse.foldl addProduction fourTrees).analyze { start := some "S" }
      ()).result.toOption.map (fun analysis => analysis.diagnostics.items.map (·.production)) =
        some ["C", "B", "S"] := by
    decide +kernel
  obtain ⟨analysis, ha, reports⟩ := Option.map_eq_some_iff.mp forwards
  obtain ⟨other, hb, reports'⟩ := Option.map_eq_some_iff.mp backwards
  have analyzed := toOption_eq_some.mp ha
  have analyzed' := toOption_eq_some.mp hb
  have reorders : (fourRules.foldl addProduction fourTrees).Reorders
      (fourRules.reverse.foldl addProduction fourTrees) :=
    .of_foldl rfl (List.reverse_perm fourRules).symm (by decide)
  obtain ⟨ran, listed⟩ := Prod.mk.inj reports
  exact ⟨analysis, other, analyzed, analyzed',
    (analyze_reordered reorders rfl () ()).2 analysis other analyzed analyzed', ran, listed, reports'⟩

end Registry

end BoundedLookahead
