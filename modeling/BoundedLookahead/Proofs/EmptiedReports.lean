import BoundedLookahead.Proofs.EmptiedWalks
import BoundedLookahead.Proofs.Statuses

/-!
# The report on an emptied directive

A directive that gives an amount and nothing else is reported once or not at all. With an
empty sequence in its place that report is missing, and all else in the report of validation
is as before.
-/

namespace BoundedLookahead

/-- The second list is the first one without one occurrence of the item. -/
def DropsOne {α : Type} (item : α) (list rest : List α) : Prop :=
  ∃ before after, list = before ++ item :: after ∧ rest = before ++ after

namespace DropsOne

variable {α β : Type} {item : α} {list rest : List α}

/-- The occurrence is dropped between other lists. -/
theorem append (h : DropsOne item list rest) (front behind : List α) :
    DropsOne item (front ++ list ++ behind) (front ++ rest ++ behind) := by
  obtain ⟨before, after, rfl, rfl⟩ := h
  exact ⟨front ++ before, after ++ behind, by simp, by simp⟩

/-- The image of the occurrence is dropped from the images. -/
theorem map (h : DropsOne item list rest) (f : α → β) :
    DropsOne (f item) (list.map f) (rest.map f) := by
  obtain ⟨before, after, rfl, rfl⟩ := h
  exact ⟨before.map f, after.map f, by simp, by simp⟩

/-- The occurrence is dropped in front of another list. -/
theorem append_right (h : DropsOne item list rest) (behind : List α) :
    DropsOne item (list ++ behind) (rest ++ behind) := h.append [] behind

/-- It is dropped from what is kept, if it is kept, also in front of lists of which the same is
kept. -/
theorem filter (h : DropsOne item list rest) {keep : α → Bool} (kept : keep item = true)
    {behind behind' : List α} (same : behind.filter keep = behind'.filter keep) :
    DropsOne item ((list ++ behind).filter keep) ((rest ++ behind').filter keep) := by
  obtain ⟨before, after, rfl, rfl⟩ := h
  refine ⟨before.filter keep, after.filter keep ++ behind.filter keep, ?_, ?_⟩
  · rw [List.filter_append, List.filter_append, List.filter_cons_of_pos kept, List.append_assoc]
    rfl
  · rw [List.filter_append, List.filter_append, List.append_assoc, same]

/-- What is not kept is one occurrence, if it is the item and the item occurs once. -/
theorem of_filter [DecidableEq α] {keep : α → Bool} (hm : item ∈ list)
    (dropped : ∀ other ∈ list, keep other = false ↔ other = item) (once : list.count item ≤ 1) :
    DropsOne item list (list.filter keep) := by
  obtain ⟨before, after, rfl, fresh⟩ := List.eq_append_cons_of_mem hm
  have spent : item ∉ after := by
    rw [List.count_append, List.count_cons_self] at once
    exact List.count_eq_zero.mp (by omega)
  have whole {part : List α} (within : part ⊆ before ++ item :: after) (without : item ∉ part) :
      part.filter keep = part := by
    refine List.filter_eq_self.mpr fun other ho => ?_
    by_contra none
    rw [Bool.not_eq_true, dropped other (within ho)] at none
    exact without (none ▸ ho)
  refine ⟨before, after, rfl, ?_⟩
  rw [List.filter_append, List.filter_cons_of_neg (by simp [(dropped item hm).mpr rfl]),
    whole (List.subset_append_left _ _) fresh, whole (by simp) spent]

end DropsOne

/-- The findings of what is left of a walk without what it comes across at a node. -/
theorem toFinding_filter {id : NodeId} {observations : List Observation} {findings : List Finding}
    (h : observations.mapM Observation.toFinding = .ok findings) :
    (observations.filter fun observation => !observation.isAt id).mapM Observation.toFinding =
      .ok (findings.filter fun finding => finding.node != id) := by
  have each := mapM_eq_ok.mp h
  clear h
  induction each with
  | nil => rfl
  | @cons observation finding _ _ first rest ih =>
    cases observation with
    | stray id => cases first
    | finding found =>
      cases first
      by_cases same : finding.node = id
      · rw [List.filter_cons_of_neg (by simp [Observation.isAt, same]),
          List.filter_cons_of_neg (by simp [same]), ih]
      · rw [List.filter_cons_of_pos (by simp [Observation.isAt, same]),
          List.filter_cons_of_pos (by simp [same])]
        exact mapM_cons_eq_ok.mpr ⟨finding, _, rfl, ih, rfl⟩

namespace Registry

variable {registry : Registry} {options : Options} {names : List String} {production : Production}
  {id : NodeId} {amount : Nat} {found : List (Production × List Finding)} {findings : List Finding}

/-- Findings that are neither structural nor about repetitions do not matter to the status. -/
theorem statusOf_filter {keep : Finding → Bool}
    (misplaced : ∀ finding ∈ findings, keep finding = false → finding.problem = .misplaced) :
    registry.statusOf production (findings.filter keep) = registry.statusOf production findings := by
  have structural : (findings.filter keep).any (·.problem.kind.isStructural) =
      findings.any (·.problem.kind.isStructural) := by
    rw [Bool.eq_iff_iff, List.any_eq_true, List.any_eq_true]
    refine ⟨fun ⟨finding, hm, blocks⟩ => ⟨finding, List.mem_of_mem_filter hm, blocks⟩, ?_⟩
    rintro ⟨finding, hm, blocks⟩
    refine ⟨finding, List.mem_filter.mpr ⟨hm, ?_⟩, blocks⟩
    by_contra dropped
    rw [misplaced finding hm (by simpa using dropped)] at blocks
    cases blocks
  have loops : (findings.filter keep).filter (·.problem.kind == .emptyRepetition) =
      findings.filter (·.problem.kind == .emptyRepetition) := by
    rw [List.filter_filter]
    refine List.filter_congr fun finding hm => ?_
    cases hk : keep finding with
    | true => exact Bool.and_true _
    | false =>
      rw [misplaced finding hm hk]
      rfl
  unfold statusOf
  rw [structural, loops]

/-- What was found is what the walk over the tree of a production comes across. -/
theorem mem_foundIn (hf : registry.foundIn options names = .ok found)
    (hm : (production, findings) ∈ found) : production ∈ registry.productions ∧
      ((registry.tree production.root).observations registry options names .plain).mapM
        Observation.toFinding = .ok findings := by
  have listed : production ∈ registry.productions := by
    rw [← map_fst_foundIn hf]
    exact List.mem_map_of_mem hm
  obtain ⟨findings', hw, hm', _⟩ := exists_findings hf listed
  have same : (production, findings) = (production, findings') :=
    List.inj_on_of_nodup_map (nodup_names_foundIn hf) hm hm' rfl
  cases same
  exact ⟨listed, hw⟩

/-- Validation finds in the production that the node is a directive that steers no decision. -/
def Misplaces (registry : Registry) (options : Options) (production : Production) (id : NodeId) : Prop :=
  ∃ names found findings, registry.nullableNames = .ok names ∧
    registry.foundIn options names = .ok found ∧ (production, findings) ∈ found ∧
    registry.misplacedAt id ∈ findings

/-- What was found of that kind is found in walking the tree. -/
theorem mem_misplacedFrom_of_mem_findings (hf : registry.foundIn options names = .ok found)
    (hm : (production, findings) ∈ found) : findings.filter (·.problem.kind == .misplacedLookahead) =
      registry.misplacedFrom options names (production.root, .plain) :=
  findings_ofKind _ (mem_foundIn hf hm).2

/-- Validation meets a directive that it finds misplaced in a plain slot. -/
theorem Misplaces.meets {final : Owners} (ho : registry.owners = .ok final)
    (h : registry.Misplaces options production id) :
    production ∈ registry.productions ∧ registry.Meets (production.root, .plain) (id, .plain) := by
  obtain ⟨names, found, findings, _, hf, hm, misplaced⟩ := h
  have listed := (mem_foundIn hf hm).1
  have among : registry.misplacedAt id ∈ registry.misplacedFrom options names (production.root, .plain) := by
    rw [← mem_misplacedFrom_of_mem_findings hf hm]
    exact List.mem_filter.mpr ⟨misplaced, rfl⟩
  obtain ⟨node, met, _, same⟩ := (grounded_production ho production listed).mem_misplacedFrom.mp among
  obtain rfl : id = node := congrArg Finding.node same
  exact ⟨listed, met⟩

namespace IsAmount

variable (h : registry.IsAmount id amount) {final : Owners} (ho : registry.owners = .ok final)
  (hf : registry.foundIn options names = .ok found)

include h ho hf

/-- What was found at the directive is that it is misplaced, in the production of its tree. -/
theorem finding_at (hm : (production, findings) ∈ found) {finding : Finding} (hi : finding ∈ findings)
    (at_node : finding.node = id) :
    finding = registry.misplacedAt id ∧ registry.Reaches production.root id := by
  obtain ⟨listed, hw⟩ := mem_foundIn hf hm
  have grounded := grounded_production ho production listed
  obtain ⟨observation, seen, hs⟩ := exists_input_of_mapM_eq_ok hw hi
  cases observation with
  | stray id => cases hs
  | finding found =>
    cases hs
    have misplaced : finding = registry.misplacedAt id :=
      Observation.finding.inj (h.observation_at grounded seen (beq_iff_eq.mpr at_node))
    have among : finding ∈ registry.misplacedFrom options names (production.root, .plain) := by
      rw [← mem_misplacedFrom_of_mem_findings hf hm, misplaced]
      exact List.mem_filter.mpr ⟨misplaced ▸ hi, rfl⟩
    obtain ⟨node, met, _, same⟩ := grounded.mem_misplacedFrom.mp among
    obtain rfl : id = node := at_node.symm.trans (congrArg Finding.node same)
    exact ⟨misplaced, met.reaches⟩

/-- In the emptied grammar the same is found, but for what is found at the directive. -/
theorem foundIn_emptied : (registry.emptied id).foundIn options names =
    .ok (found.map fun entry => (entry.1, entry.2.filter fun finding => finding.node != id)) := by
  rw [foundIn_eq, mapM_eq_ok] at hf
  rw [foundIn_eq, mapM_eq_ok, List.forall₂_map_right_iff]
  refine ((List.forall₂_and_left _ _).mpr ⟨fun production hp => hp, hf⟩).imp ?_
  rintro production entry ⟨hp, he⟩
  obtain ⟨findings, hw, he⟩ := bind_eq_ok.mp he
  cases he
  refine bind_eq_ok.mpr ⟨_, ?_, rfl⟩
  have walk := h.observations_emptied (grounded_production ho production hp) options names .plain
  exact (congrArg _ walk).trans (toFinding_filter hw)

/-- The statuses are those of the grammar with the directive. -/
theorem status_emptied :
    (found.map fun entry => (entry.1, entry.2.filter fun finding => finding.node != id)).map
        (fun entry => (entry.1.name, (registry.emptied id).statusOf entry.1 entry.2)) =
      found.map fun entry => (entry.1.name, registry.statusOf entry.1 entry.2) := by
  rw [List.map_map]
  refine List.map_congr_left fun entry hm => ?_
  have duplicates : (registry.emptied id).statusOf = registry.statusOf := rfl
  rw [Function.comp_apply, duplicates, statusOf_filter]
  intro finding hi dropped
  rw [(h.finding_at ho hf hm hi (by simpa using dropped)).1]
  rfl

/-- Where the directive is found misplaced, what is found lacks that alone. -/
theorem findings_emptied (hm : (production, findings) ∈ found)
    (misplaced : registry.misplacedAt id ∈ findings) :
    DropsOne ((registry.misplacedAt id).diagnostic production.name)
      (found.flatMap fun entry => entry.2.map (·.diagnostic entry.1.name))
      ((found.map fun entry => (entry.1, entry.2.filter fun finding => finding.node != id)).flatMap
        fun entry => entry.2.map (·.diagnostic entry.1.name)) := by
  obtain ⟨listed, hw⟩ := mem_foundIn hf hm
  have reached := (h.finding_at ho hf hm misplaced rfl).2
  have once : findings.count (registry.misplacedAt id) ≤ 1 := by
    have walked : (findings.filter (·.problem.kind == .misplacedLookahead)).Nodup := by
      rw [mem_misplacedFrom_of_mem_findings hf hm]
      exact (nodup_findingsFrom ho listed).of_map _
    rw [← List.count_filter (p := fun finding => finding.problem.kind == .misplacedLookahead) rfl]
    exact List.nodup_iff_count_le_one.mp walked _
  have own : DropsOne (registry.misplacedAt id) findings
      (findings.filter fun finding => finding.node != id) := by
    refine DropsOne.of_filter misplaced (fun finding hi => ?_) once
    rw [bne_eq_false_iff_eq]
    exact ⟨fun at_node => (h.finding_at ho hf hm hi at_node).1, fun same => same ▸ rfl⟩
  have other {entry : Production × List Finding} (he : entry ∈ found) (apart : entry.1 ≠ production) :
      entry.2.filter (fun finding => finding.node != id) = entry.2 := by
    refine List.filter_eq_self.mpr fun finding hi => bne_iff_ne.mpr fun at_node => apart ?_
    have below := (h.finding_at ho hf he hi at_node).2
    exact production_eq_of_reaches ho (mem_foundIn hf he).1 listed below reached
  have distinct : (found.map Prod.fst).Nodup := by
    rw [map_fst_foundIn hf]
    exact registry.names_nodup.of_map _
  obtain ⟨before, after, rfl⟩ := List.append_of_mem hm
  rw [List.map_append, List.map_cons, List.nodup_middle, ← List.map_append] at distinct
  have whole {part : List (Production × List Finding)} (within : part ⊆ before ++ after) :
      (part.map fun entry => (entry.1, entry.2.filter fun finding => finding.node != id)) = part := by
    refine (List.map_congr_left fun entry he => ?_).trans (List.map_id part)
    have apart : entry.1 ≠ production := by
      have named : entry.1 ∈ (before ++ after).map Prod.fst := List.mem_map_of_mem (within he)
      exact fun same => (List.nodup_cons.mp distinct).1 (same ▸ named)
    rw [other ?_ apart]
    · rfl
    · rcases List.mem_append.mp (within he) with he | he
      · exact List.mem_append_left _ he
      · exact List.mem_append_right _ (List.mem_cons_of_mem _ he)
  rw [List.map_append, List.map_cons, whole (List.subset_append_left _ _),
    whole (List.subset_append_right _ _)]
  simpa using (own.map (·.diagnostic production.name)).append
    (before.flatMap fun entry => entry.2.map (·.diagnostic entry.1.name))
    (after.flatMap fun entry => entry.2.map (·.diagnostic entry.1.name))

end IsAmount

/-- Where validation finds the directive misplaced, it makes the same report on the emptied grammar
but for that. -/
theorem IsAmount.validated_emptied (h : registry.IsAmount id amount) {final : Owners}
    (ho : registry.owners = .ok final) (misplaced : registry.Misplaces options production id) :
    ∃ report report', registry.validated options = .ok report ∧
      (registry.emptied id).validated options = .ok report' ∧ report'.status = report.status ∧
      report'.nullable = report.nullable ∧ report'.cycles = report.cycles ∧
      DropsOne ((registry.misplacedAt id).diagnostic production.name) report.diagnostics.items
        report'.diagnostics.items := by
  obtain ⟨names, found, findings, hn, hf, hm, among⟩ := misplaced
  have roots := grounded_production ho
  have hv : registry.validated options = .ok (registry.reportOf options names found) :=
    bind_eq_ok.mpr ⟨names, hn, bind_eq_ok.mpr ⟨found, hf, rfl⟩⟩
  have hv' : (registry.emptied id).validated options = .ok ((registry.emptied id).reportOf options names
      (found.map fun entry => (entry.1, entry.2.filter fun finding => finding.node != id))) :=
    bind_eq_ok.mpr ⟨names, (h.nullableNames_emptied roots).trans hn,
      bind_eq_ok.mpr ⟨_, h.foundIn_emptied ho hf, rfl⟩⟩
  refine ⟨_, _, hv, hv', h.status_emptied ho hf, rfl, h.leftRecursiveCycles_emptied roots names, ?_⟩
  simp only [reportOf, h.leftRecursiveCycles_emptied roots, h.unreachableDiagnostics_emptied roots]
  exact (h.findings_emptied ho hf hm among).append _ _

end Registry

end BoundedLookahead
