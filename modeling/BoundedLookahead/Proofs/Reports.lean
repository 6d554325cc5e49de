import BoundedLookahead.Proofs.SinglePoints

/-!
# Reports of decisions

What an analysis reports of its decisions is said at their nodes. Kind by kind its report
is a list of nodes, each once, with what is said at each of them. A conflict of a loop is
said of repetitions only, and everything else of choices.
-/

namespace BoundedLookahead

/-- Nothing of a kind is found among diagnostics of other kinds. -/
theorem filter_kind_eq_nil {diagnostics : List Diagnostic} {kind : DiagnosticKind}
    (others : ∀ diagnostic ∈ diagnostics, diagnostic.kind ≠ kind) :
    diagnostics.filter (·.kind = kind) = [] :=
  List.filter_eq_nil_iff.mpr fun diagnostic hm => by simpa using others diagnostic hm

/-- What satisfies the condition comes from the parts that it is about. -/
theorem filter_flatMap_of_forall {α β : Type} {part : α → List β} {wanted : β → Bool}
    (about : α → Bool) {list : List α}
    (h : ∀ x ∈ list, ∀ y ∈ part x, wanted y = true → about x = true) :
    (list.flatMap part).filter wanted =
      (list.filter about).flatMap fun x => (part x).filter wanted := by
  rw [List.filter_flatMap]
  induction list with
  | nil => rfl
  | cons x list ih =>
    rw [List.forall_mem_cons] at h
    rw [List.flatMap_cons, ih h.2]
    cases hx : about x with
    | true => rw [List.filter_cons_of_pos hx, List.flatMap_cons]
    | false =>
      have none : (part x).filter wanted = [] := List.filter_eq_nil_iff.mpr fun y hy hwanted => by
        simpa [hx] using h.1 y hy hwanted
      rw [List.filter_cons_of_neg (by simp [hx]), none, List.nil_append]

/-- Two steps find something when the second one finds something from what the first one
finds. -/
theorem exists_bind_eq_some_iff {α β : Type} {found : Option α} {next : α → Option β} :
    (∃ result, found.bind next = some result) ↔
      ∃ value, found = some value ∧ (next value).isSome = true := by
  cases found <;> simp [Option.isSome_iff_exists]

namespace Registry

section

variable {registry : Registry} {limit : Nat} {scope : Scope} {tree : Tree} {point : Point}
  (h : registry.Decides limit scope tree point) {warning : Diagnostic}
  (hw : warning ∈ point.warnings)

include h hw

/-- A point that warns of anything but a loop decides a choice. -/
theorem Decides.exists_choice_of_warning (hk : warning.kind ≠ .loopConflict) :
    ∃ decision, point.decision = .choice decision := by
  cases h with
  | choice h =>
    obtain ⟨_, _, _, _, _, _, rfl⟩ := choicePoint_eq_ok h
    exact ⟨_, rfl⟩
  | repetition follow h => exact absurd (kind_of_mem_loopPoint h warning hw) hk

/-- A point that warns of a loop decides a repetition. -/
theorem Decides.exists_loop_of_warning (hk : warning.kind = .loopConflict) :
    ∃ decision, point.decision = .loop decision := by
  cases h with
  | choice h => exact absurd hk (kind_ne_of_mem_choicePoint h warning hw)
  | repetition follow h =>
    obtain ⟨_, _, _, _, _, _, rfl⟩ := loopPoint_eq_ok h
    exact ⟨_, rfl⟩

end

variable {σ : Type} {registry : Registry} {options : Options} {state : σ} {analysis : Analysis}
  (analyzed : (registry.analyze options state).result = .ok analysis) {kind : DiagnosticKind}

include analyzed

/-- The warnings of a kind that is made of one sort of decisions only are those at the nodes
with such a decision, node by node. -/
theorem exists_nodes (found : kind ∈ DiagnosticKind.ofDecisions) (sort : Decision → Bool)
    (about : ∀ {scope : Scope} {tree : Tree} {point : Point},
      registry.Decides options.expansionLimit scope tree point →
        ∀ warning ∈ point.warnings, warning.kind = kind → sort point.decision = true) :
    ∃ nodes : List NodeId, nodes.Nodup ∧
      (∀ id, id ∈ nodes ↔
        ∃ decision, analysis.decisions.get? id = some decision ∧ sort decision = true) ∧
      analysis.diagnostics.items.filter (·.kind = kind) =
        nodes.flatMap fun id => (registry.warningsAt options id).filter (·.kind = kind) := by
  obtain ⟨_, ⟨final, ho⟩, report, hr, outcome⟩ := analyze_eq_ok analyzed
  have structural : report.diagnostics.items.filter (·.kind = kind) = [] :=
    filter_kind_eq_nil fun warning hw same => kind_not_mem_ofDecisions hr warning hw (same ▸ found)
  obtain ⟨_, points, hp, rfl⟩ | ⟨_, rfl⟩ := outcome
  swap
  · have items : (report.diagnostics ++ (⟨[]⟩ : Diagnostics)).items =
        report.diagnostics.items ++ [] := rfl
    refine ⟨[], .nil, fun id => ⟨nofun, ?_⟩, ?_⟩
    · rintro ⟨decision, decided, _⟩
      cases decided
    · rw [items, List.append_nil, structural, List.flatMap_nil]
  have grounded := grounded_production ho
  have nodup := nodup_points ho hp
  refine ⟨(points.filter fun point => sort point.decision).map (·.node),
    nodup.sublist (List.filter_sublist.map _), fun id => ⟨?_, ?_⟩, ?_⟩
  · intro hm
    obtain ⟨point, among, rfl⟩ := List.mem_map.mp hm
    obtain ⟨listed, sorted⟩ := List.mem_filter.mp among
    exact ⟨point.decision, get?_ofPoints nodup listed, sorted⟩
  · rintro ⟨decision, decided, sorted⟩
    obtain ⟨point, hm, rfl, rfl⟩ := exists_point_of_get? decided
    exact List.mem_map_of_mem (List.mem_filter.mpr ⟨hm, sorted⟩)
  · have items : (report.diagnostics ++ (Resolution.ofPoints points).diagnostics).items =
        report.diagnostics.items ++ points.flatMap (·.warnings) := rfl
    rw [items, List.filter_append, structural, List.nil_append,
      filter_flatMap_of_forall fun point => sort point.decision, List.flatMap_map]
    · refine List.flatMap_congr fun point hm => ?_
      rw [warningsAt_eq_warnings ho hr hp (List.mem_of_mem_filter hm)]
    · intro point hm warning hw hk
      obtain ⟨production, _, _, _, decides⟩ := exists_production_decides grounded hp hm
      exact about decides warning hw (of_decide_eq_true hk)

/-- The warnings of any other kind than that of loops are those of the choices. -/
theorem exists_choices (found : kind ∈ DiagnosticKind.ofDecisions) (other : kind ≠ .loopConflict) :
    ∃ choices : List NodeId, choices.Nodup ∧
      (∀ id, id ∈ choices ↔ ∃ decision, analysis.decisions.choice? id = some decision) ∧
      analysis.diagnostics.items.filter (·.kind = kind) =
        choices.flatMap fun id => (registry.warningsAt options id).filter (·.kind = kind) := by
  obtain ⟨choices, nodup, decided, items⟩ := exists_nodes analyzed found (·.choice?.isSome)
    fun decides warning hw hk => by
      obtain ⟨decision, hd⟩ := decides.exists_choice_of_warning hw (hk.trans_ne other)
      rw [hd]
      rfl
  exact ⟨choices, nodup, fun id => (decided id).trans exists_bind_eq_some_iff.symm, items⟩

/-- The conflicts of loops are those of the repetitions. -/
theorem exists_loops : ∃ loops : List NodeId, loops.Nodup ∧
      (∀ id, id ∈ loops ↔ ∃ decision, analysis.decisions.loop? id = some decision) ∧
      analysis.diagnostics.items.filter (·.kind = .loopConflict) =
        loops.flatMap fun id => (registry.warningsAt options id).filter (·.kind = .loopConflict) := by
  obtain ⟨loops, nodup, decided, items⟩ := exists_nodes analyzed
    (by decide : .loopConflict ∈ DiagnosticKind.ofDecisions) (·.loop?.isSome)
    fun decides warning hw hk => by
      obtain ⟨decision, hd⟩ := decides.exists_loop_of_warning hw hk
      rw [hd]
      rfl
  exact ⟨loops, nodup, fun id => (decided id).trans exists_bind_eq_some_iff.symm, items⟩

/-- The decision of a choice was made in the walk over a production, from the trees of its
alternatives and with the warnings at its node. -/
theorem exists_choicePoint {id : NodeId} {decision : ChoiceDecision}
    (decided : analysis.decisions.choice? id = some decision) :
    ∃ production ∈ registry.productions, registry.Reaches production.root id ∧
      ∃ scope location trees point, scope.production = production.name ∧
        (registry.oracle options.expansionLimit).choicePoint scope id location trees = .ok point ∧
        point.decision = .choice decision ∧ point.warnings = registry.warningsAt options id ∧
        ∀ tree ∈ trees, registry.tree tree.id = tree := by
  obtain ⟨_, ⟨final, ho⟩, report, hr, ⟨_, points, hp, rfl⟩ | ⟨_, rfl⟩⟩ := analyze_eq_ok analyzed
  swap
  · cases decided
  have grounded := grounded_production ho
  obtain ⟨point, hm, rfl, hd⟩ := exists_point decided
  obtain ⟨production, hprod, _, reached, decides⟩ := exists_production_decides grounded hp hm
  obtain ⟨node, location, trees, ht, h⟩ := decides.exists_choice hd
  have hg := (grounded production hprod).of_reaches reached
  have own : node = point.node := by rw [← hg.tree_id, ht, Tree.id]
  refine ⟨production, hprod, reached, _, location, trees, point, rfl, own ▸ h, hd,
    (warningsAt_eq_warnings ho hr hp hm).symm, fun tree hm => ?_⟩
  obtain ⟨expansion, he, below⟩ := hg.exists_expansion
  obtain ⟨_, hn⟩ := hg.exists_tree_eq he
  rw [ht] at hn
  cases expansion with
  | choice alternatives =>
    cases hn
    obtain ⟨child, hc, rfl⟩ := List.mem_map.mp hm
    rw [(below child hc).tree_id]
  | _ => cases hn

end Registry

end BoundedLookahead
