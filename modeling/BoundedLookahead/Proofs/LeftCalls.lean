import BoundedLookahead.Proofs.Exploration
import BoundedLookahead.Proofs.Stages

/-!
# Certificates of left recursion

One production calls another on the left when the call stands where no token has
been consumed: behind units that derive the empty word, in any alternative, in the
body of a repetition or of a guarded block. On grounded productions the graph that
the search follows holds these calls and no others. So a report is free of left
recursion exactly when no production reaches itself, and what it reports otherwise
are round trips of left calls, each once and each with one diagnostic.
-/

namespace BoundedLookahead

namespace Registry

/-- The way from the first node down to the second consumes no token. -/
inductive Leads (registry : Registry) : NodeId → NodeId → Prop
  /-- The way has come to its end. -/
  | here {id : NodeId} : Leads registry id id
  /-- Through a unit of a sequence, where all units before it can match the empty word. -/
  | unit {id unit other : NodeId} {before behind : List NodeId}
    (h : registry.expansion? id = some (.sequence (before ++ unit :: behind)))
    (empty : ∀ earlier ∈ before, registry.Derives .repeated earlier [])
    (rest : Leads registry unit other) : Leads registry id other
  /-- Through an alternative of a choice. -/
  | alternative {id alternative other : NodeId} {alternatives : List NodeId}
    (h : registry.expansion? id = some (.choice alternatives)) (taken : alternative ∈ alternatives)
    (rest : Leads registry alternative other) : Leads registry id other
  /-- Through the body of a repetition. -/
  | repetition {id body other : NodeId} {kind : RepetitionKind} {guard : Option NodeId}
    (h : registry.expansion? id = some (.repetition kind body guard))
    (rest : Leads registry body other) : Leads registry id other
  /-- Through the body of a guarded block. -/
  | tryBlock {id body other : NodeId} {handlers : List Handler} {cleanup : Option String}
    (h : registry.expansion? id = some (.tryBlock body handlers cleanup))
    (rest : Leads registry body other) : Leads registry id other

/-- The node has a call of that name where no token has been consumed. -/
def CallsFirst (registry : Registry) (id : NodeId) (callee : String) : Prop :=
  ∃ other args, registry.Leads id other ∧
    registry.expansion? other = some (.nonTerminal callee args)

/-- The first production calls the second, which is defined, before it has consumed a
token. -/
def LeftCalls (registry : Registry) (caller callee : String) : Prop :=
  registry.isDefined callee = true ∧ ∃ production, registry.production? caller = some production ∧
    registry.CallsFirst production.root callee

end Registry

/-- The left calls of a row of units are those of a unit behind nullable ones. -/
theorem Tree.mem_unitLeftCalls {names : List String} {trees : List Tree} {callee : String} :
    callee ∈ unitLeftCalls names trees ↔ ∃ before tree behind, trees = before ++ tree :: behind ∧
      (∀ earlier ∈ before, earlier.nullable names = true) ∧ callee ∈ tree.leftCalls names := by
  induction trees with
  | nil => simp [unitLeftCalls]
  | cons tree trees ih =>
    rw [unitLeftCalls, List.mem_append]
    constructor
    · rintro (h | h)
      · exact ⟨[], tree, trees, rfl, by simp, h⟩
      · split at h
        · next hn =>
          obtain ⟨before, other, behind, rfl, hb, hc⟩ := ih.mp h
          exact ⟨tree :: before, other, behind, rfl, List.forall_mem_cons.mpr ⟨hn, hb⟩, hc⟩
        · cases h
    · rintro ⟨before, other, behind, he, hb, hc⟩
      cases before with
      | nil =>
        cases he
        exact .inl hc
      | cons first before =>
        cases he
        rw [List.forall_mem_cons] at hb
        rw [if_pos hb.1]
        exact .inr (ih.mpr ⟨before, other, behind, rfl, hb.2, hc⟩)

namespace Registry

variable {registry : Registry} {id : NodeId} {names : List String} {callee caller : String}

section

variable (empty : ∀ id, registry.Grounded id →
  ((registry.tree id).nullable names = true ↔ registry.Derives .repeated id []))

include empty

/-- Every left call of the tree of a node stands where no token has been consumed. -/
theorem Grounded.callsFirst (h : registry.Grounded id)
    (hc : callee ∈ (registry.tree id).leftCalls names) : registry.CallsFirst id callee := by
  induction h with
  | @node id entry found below ih =>
    obtain ⟨expansion, location⟩ := entry
    have he : registry.expansion? id = some expansion := by simp [expansion?, found]
    rw [(Grounded.node found below).tree_eq found] at hc
    cases expansion with
    | nonTerminal name args =>
      obtain rfl : callee = name := by simpa [Expansion.map, Tree.leftCalls] using hc
      exact ⟨id, args, .here, he⟩
    | sequence units =>
      obtain ⟨before, tree, behind, hu, hb, hc⟩ := Tree.mem_unitLeftCalls.mp hc
      obtain ⟨front, back, rfl, rfl, ht⟩ := List.map_eq_append_iff.mp hu
      obtain ⟨unit, rest, rfl, rfl, rfl⟩ := List.map_eq_cons_iff.mp ht
      obtain ⟨other, args, way, ho⟩ := ih unit (by simp [Expansion.children]) hc
      refine ⟨other, args, .unit he (fun earlier hm => ?_) way, ho⟩
      exact (empty earlier (below earlier (by simp [Expansion.children, hm]))).mp
        (hb _ (List.mem_map_of_mem hm))
    | choice alternatives =>
      rw [Expansion.map, Tree.leftCalls, Tree.alternativeLeftCalls_eq_flatMap, List.flatMap_map,
        List.mem_flatMap] at hc
      obtain ⟨alternative, ha, hc⟩ := hc
      obtain ⟨other, args, way, ho⟩ := ih alternative ha hc
      exact ⟨other, args, .alternative he ha way, ho⟩
    | repetition kind body guard =>
      obtain ⟨other, args, way, ho⟩ := ih body (by simp [Expansion.children]) hc
      exact ⟨other, args, .repetition he way, ho⟩
    | tryBlock body handlers cleanup =>
      obtain ⟨other, args, way, ho⟩ := ih body (by simp [Expansion.children]) hc
      exact ⟨other, args, .tryBlock he way, ho⟩
    | _ => cases hc

/-- A call that stands where no token has been consumed is a left call of the tree. -/
theorem Leads.mem_leftCalls {other : NodeId} {args : List String} (way : registry.Leads id other)
    (h : registry.Grounded id) (ho : registry.expansion? other = some (.nonTerminal callee args)) :
    callee ∈ (registry.tree id).leftCalls names := by
  induction way with
  | here =>
    obtain ⟨location, ht⟩ := h.exists_tree_eq ho
    simp [ht, Expansion.map, Tree.leftCalls]
  | @unit id unit other before behind he units rest ih =>
    obtain ⟨location, ht⟩ := h.exists_tree_eq he
    have below := h.of_expansion he
    rw [ht, Expansion.map, Tree.leftCalls, List.map_append, List.map_cons, Tree.mem_unitLeftCalls]
    refine ⟨_, _, _, rfl, fun tree hm => ?_, ih (below unit (by simp [Expansion.children])) ho⟩
    obtain ⟨earlier, hb, rfl⟩ := List.mem_map.mp hm
    exact (empty earlier (below earlier (by simp [Expansion.children, hb]))).mpr (units earlier hb)
  | @alternative id alternative other alternatives he taken rest ih =>
    obtain ⟨location, ht⟩ := h.exists_tree_eq he
    rw [ht, Expansion.map, Tree.leftCalls, Tree.alternativeLeftCalls_eq_flatMap, List.flatMap_map,
      List.mem_flatMap]
    exact ⟨alternative, taken, ih (h.of_expansion he _ taken) ho⟩
  | @repetition id body other kind guard he rest ih =>
    obtain ⟨location, ht⟩ := h.exists_tree_eq he
    rw [ht, Expansion.map, Tree.leftCalls]
    exact ih (h.of_expansion he _ (by simp [Expansion.children])) ho
  | @tryBlock id body other handlers cleanup he rest ih =>
    obtain ⟨location, ht⟩ := h.exists_tree_eq he
    rw [ht, Expansion.map, Tree.leftCalls]
    exact ih (h.of_expansion he _ (by simp [Expansion.children])) ho

end

/-- The graph of left calls holds the left calls and no others. -/
theorem calls_leftCallGraph
    (grounded : ∀ production ∈ registry.productions, registry.Grounded production.root)
    (hn : registry.nullableNames = .ok names) :
    CallGraph.Calls (registry.leftCallGraph names) caller callee ↔
      registry.LeftCalls caller callee := by
  rw [leftCallGraph_eq, calls_graphOf]
  refine and_congr_right fun _ => exists_congr fun production => and_congr_right fun hp => ?_
  have root := grounded production (List.mem_of_find?_eq_some hp)
  have empty id (h : registry.Grounded id) := h.nullable_iff grounded hn
  refine ⟨root.callsFirst empty, ?_⟩
  rintro ⟨other, args, way, ho⟩
  exact way.mem_leftCalls empty root ho

/-- Where ownership is in order, validation certifies left recursion exactly. It reports
no cycle just when no production reaches itself in one or more left calls. The cycles
are round trips of left calls, none is another one begun elsewhere, and each has one
diagnostic, at its first production. -/
theorem validate_leftRecursion {σ : Type} (options : Options) (state : σ) {final : Owners}
    (h : registry.owners = .ok final) :
    ∃ report, (registry.validate options state).result = .ok report ∧
      (report.isLeftRecursionFree = true ↔
        ∀ name, ¬ Relation.TransGen registry.LeftCalls name name) ∧
      (∀ cycle ∈ report.cycles, RoundTrip registry.LeftCalls cycle) ∧
      (report.cycles.Pairwise fun cycle other => ¬ cycle.IsRotated other) ∧
      List.Forall₂ (fun diagnostic cycle => ∃ entry, cycle.head? = some entry.name ∧
          registry.production? entry.name = some entry ∧
          diagnostic.production = entry.name ∧ diagnostic.location = entry.location)
        (report.diagnostics.ofKind .leftRecursion) report.cycles := by
  have grounded := grounded_production h
  obtain ⟨nullable, found, hn, _, hv⟩ := exists_validated options grounded
  have calls : CallGraph.Calls (registry.leftCallGraph nullable) = registry.LeftCalls := by
    funext caller callee
    exact propext (calls_leftCallGraph grounded hn)
  have closed := @graphOf_closed registry (Tree.leftCalls nullable)
  have trips : ∀ cycle ∈ registry.leftRecursiveCycles nullable, RoundTrip registry.LeftCalls cycle := by
    rw [← calls]
    exact CycleSearch.roundTrip_of_mem_cycles closed
  refine ⟨_, (validate_result state).trans hv, ?_, trips, ?_, ?_⟩
  · rw [Report.isLeftRecursionFree, List.isEmpty_iff, ← calls]
    exact CycleSearch.cycles_run_eq_nil_iff closed
  · refine CycleSearch.pairwise_cycles_run closed nodup_callees_graphOf ?_
    rw [leftCallGraph_eq, names_graphOf]
    exact registry.names_nodup
  · rw [ofKind_leftRecursion, List.forall₂_map_left_iff]
    refine List.forall₂_same.mpr fun cycle hm => ?_
    obtain ⟨first, last, hf, _, defined, _⟩ := (trips cycle hm).closed
    obtain ⟨entry, he⟩ := Option.isSome_iff_exists.mp defined
    obtain rfl : entry.name = first := by simpa using List.find?_some he
    refine ⟨entry, hf, he, ?_, ?_⟩
    · simp [cycleDiagnostic, List.headD_eq_head?_getD, hf]
    · simp [cycleDiagnostic, List.headD_eq_head?_getD, hf, he]

/-- The grammar `A -> [ o ] B` with `B -> A x`. -/
def optionalPrefix : Registry where
  nodes := #[⟨.terminal "o", {}⟩, ⟨.repetition .zeroOrOne 0 none, {}⟩, ⟨.nonTerminal "B" [], {}⟩,
    ⟨.sequence [1, 2], {}⟩, ⟨.nonTerminal "A" [], {}⟩, ⟨.terminal "x", {}⟩, ⟨.sequence [4, 5], {}⟩]
  productions := [{ name := "A", root := 3 }, { name := "B", root := 6 }]
  tokens := ["o", "x"]

/-- The call behind the optional token is a left call, so that grammar is refused. -/
theorem validate_optionalPrefix : ∃ report,
    (optionalPrefix.validate {} ()).result = .ok report ∧ report.isLeftRecursionFree = false := by
  have owned : optionalPrefix.owners.toOption.isSome = true := by decide +kernel
  obtain ⟨final, ho⟩ := exists_eq_ok_of_isSome owned
  obtain ⟨report, hr, free, _⟩ := validate_leftRecursion {} () ho
  have skipped : optionalPrefix.Derives .repeated 1 [] :=
    .repetition [] rfl (Nat.zero_le 1) (by simp)
  have forth : optionalPrefix.LeftCalls "A" "B" :=
    ⟨rfl, { name := "A", root := 3 }, rfl, 2, [],
      @Leads.unit optionalPrefix 3 2 2 [1] [] rfl (by simpa using skipped) .here, rfl⟩
  have back : optionalPrefix.LeftCalls "B" "A" :=
    ⟨rfl, { name := "B", root := 6 }, rfl, 4, [],
      @Leads.unit optionalPrefix 6 4 4 [] [5] rfl (by simp) .here, rfl⟩
  refine ⟨report, hr, Bool.not_eq_true _ ▸ fun hf => ?_⟩
  exact free.mp hf "A" (.tail (.single forth) back)

end Registry

end BoundedLookahead
