import BoundedLookahead.LeftRecursion
import BoundedLookahead.Reachability
import BoundedLookahead.Proofs.EmptyWords

/-!
# Graphs of calls

Both searches over productions follow a graph that lists, under the name of each
production, defined names found in its tree. Such a graph leads to names of
productions only and lists none twice under a name. The search for what a production
reaches is read as a run without fuel: every name is expanded once.
-/

namespace BoundedLookahead

/-- What a list of entries by name holds under a name is found with the first item of
that name. -/
theorem lookup_map_eq {α β : Type} (items : List α) (name : α → String) (value : α → β)
    (key : String) : (items.map fun item => (name item, value item)).lookup key =
      (items.find? fun item => name item == key).map value := by
  induction items with
  | nil => rfl
  | cons item items ih =>
    rw [List.map_cons, List.lookup_cons, ih]
    by_cases h : name item = key
    · subst h
      simp
    · rw [List.find?_cons_of_neg (by simpa using h)]
      simp [beq_eq_false_iff_ne.mpr (Ne.symm h)]

/-- A list without its later repetitions has none. -/
theorem nodup_eraseDups (names : List String) : names.eraseDups.Nodup := by
  induction hn : names.length using Nat.strongRecOn generalizing names with
  | _ length ih =>
    cases names with
    | nil => simp
    | cons name names =>
      rw [List.eraseDups_cons, List.nodup_cons, List.mem_eraseDups, List.mem_filter]
      refine ⟨by simp, ih _ ?_ _ rfl⟩
      rw [← hn, List.length_cons]
      exact Nat.lt_succ_of_le (List.length_filter_le _ _)

namespace CallGraph

/-- The names that a graph lists for a name. -/
def callees (graph : List (String × List String)) (name : String) : List String :=
  (graph.lookup name).getD []

/-- The first name calls the second. -/
def Calls (graph : List (String × List String)) (caller callee : String) : Prop :=
  callee ∈ callees graph caller

end CallGraph

namespace Registry

/-- The graph of the defined names that are found in the trees of the productions. -/
def graphOf (registry : Registry) (found : Tree → List String) : List (String × List String) :=
  registry.rules.map fun rule => (rule.name, (found rule.tree).eraseDups.filter registry.isDefined)

variable {registry : Registry} {found : Tree → List String} {caller callee name : String}

/-- Left calls make such a graph. -/
theorem leftCallGraph_eq (registry : Registry) (names : List String) :
    registry.leftCallGraph names = registry.graphOf (Tree.leftCalls names) := rfl

/-- All calls make such a graph. -/
theorem callGraph_eq (registry : Registry) : registry.callGraph = registry.graphOf Tree.calls := rfl

/-- The graph has an entry for every production. -/
theorem names_graphOf : (registry.graphOf found).map Prod.fst = registry.names := by
  unfold graphOf
  rw [List.map_map, ← names_rules]
  rfl

/-- The graph lists the defined names found in the tree of the production. -/
theorem callees_graphOf : CallGraph.callees (registry.graphOf found) caller =
    ((registry.production? caller).map fun production =>
      (found (registry.tree production.root)).eraseDups.filter registry.isDefined).getD [] := by
  unfold CallGraph.callees graphOf rules
  rw [List.map_map]
  exact congrArg (·.getD []) (lookup_map_eq registry.productions (·.name) (fun production =>
    (found (registry.tree production.root)).eraseDups.filter registry.isDefined) caller)

/-- One name calls another in the graph when the other is defined and found in the tree
of the production. -/
theorem calls_graphOf : CallGraph.Calls (registry.graphOf found) caller callee ↔
    registry.isDefined callee = true ∧ ∃ production, registry.production? caller = some production ∧
      callee ∈ found (registry.tree production.root) := by
  rw [CallGraph.Calls, callees_graphOf]
  cases registry.production? caller with
  | none => simp
  | some production => simp [and_comm]

/-- The calls of a tree are those of the nodes that it reaches. -/
theorem Grounded.mem_calls {id : NodeId} (h : registry.Grounded id) :
    name ∈ (registry.tree id).calls ↔ ∃ node args, registry.Reaches id node ∧
      registry.expansion? node = some (.nonTerminal name args) := by
  unfold Tree.calls
  rw [List.mem_filterMap]
  constructor
  · rintro ⟨below, hb, hc⟩
    obtain ⟨node, reached, rfl⟩ := h.mem_subtrees.mp hb
    obtain ⟨expansion, he, _⟩ := (h.of_reaches reached).exists_expansion
    obtain ⟨location, ht⟩ := (h.of_reaches reached).exists_tree_eq he
    rw [ht] at hc
    cases expansion with
    | nonTerminal called args =>
      cases hc
      exact ⟨node, args, reached, he⟩
    | _ => cases hc
  · rintro ⟨node, args, reached, he⟩
    obtain ⟨location, ht⟩ := (h.of_reaches reached).exists_tree_eq he
    refine ⟨registry.tree node, h.mem_subtrees.mpr ⟨node, reached, rfl⟩, ?_⟩
    rw [ht]
    rfl

/-- The graph leads to names of productions only. -/
theorem graphOf_closed (caller callee : String)
    (h : CallGraph.Calls (registry.graphOf found) caller callee) :
    callee ∈ (registry.graphOf found).map Prod.fst := by
  rw [names_graphOf, ← isDefined_iff]
  exact (calls_graphOf.mp h).1

/-- The graph lists no name twice under a name. -/
theorem nodup_callees_graphOf (caller : String) :
    (CallGraph.callees (registry.graphOf found) caller).Nodup := by
  rw [callees_graphOf]
  cases registry.production? caller with
  | none => exact List.nodup_nil
  | some production => exact (nodup_eraseDups _).filter _

end Registry

namespace CallGraph

/-- The search for reached names, from those pending and those seen to those seen at its
end. -/
inductive Followed (graph : List (String × List String)) :
    List String → List String → List String → Prop
  /-- Nothing is pending. -/
  | done {seen : List String} : Followed graph [] seen seen
  /-- The oldest pending name is expanded, and the names it calls first join the others. -/
  | expanded {name : String} {pending fresh seen reached : List String}
    (new : fresh = (callees graph name).filter fun callee => !seen.contains callee)
    (rest : Followed graph (pending ++ fresh) (seen ++ fresh) reached) :
    Followed graph (name :: pending) seen reached

/-- Following calls with enough fuel is a run to its end: what joins the pending names
has not been seen before. -/
theorem followCalls_followed {graph : List (String × List String)} {listed : List String}
    (closed : ∀ caller callee, Calls graph caller callee → callee ∈ listed)
    (once : ∀ name, (callees graph name).Nodup) (fuel : Nat) (pending seen : List String)
    (distinct : seen.Nodup) (known : seen ⊆ listed)
    (enough : pending.length + listed.length ≤ seen.length + fuel) :
    Followed graph pending seen (followCalls graph fuel pending seen) := by
  have bound := distinct.length_le_of_subset known
  induction fuel generalizing pending seen with
  | zero =>
    obtain rfl : pending = [] := List.length_eq_zero_iff.mp (by omega)
    exact .done
  | succ fuel ih =>
    cases pending with
    | nil => exact .done
    | cons name pending =>
      refine .expanded rfl ?_
      have distinct' : (seen ++ (callees graph name).filter fun callee =>
          !seen.contains callee).Nodup := by
        refine List.nodup_append.mpr ⟨distinct, (once name).filter _, fun a ha b hb he => ?_⟩
        simp only [List.mem_filter, Bool.not_eq_true', List.contains_eq_mem,
          decide_eq_false_iff_not] at hb
        exact hb.2 (he ▸ ha)
      have known' : seen ++ ((callees graph name).filter fun callee => !seen.contains callee) ⊆
          listed :=
        List.append_subset.mpr ⟨known, fun callee hc => closed name callee (List.mem_filter.mp hc).1⟩
      refine ih _ _ distinct' known' ?_ (distinct'.length_le_of_subset known')
      simp only [List.length_append, List.length_cons] at enough ⊢
      omega

/-- A run ends with the names that calls lead to from those it has seen, if it began with
those names pending whose calls it has not seen. -/
theorem Followed.mem_iff {graph : List (String × List String)} {pending seen reached : List String}
    (run : Followed graph pending seen reached) (waiting : pending ⊆ seen)
    (closed : ∀ caller ∈ seen, caller ∉ pending → ∀ callee, Calls graph caller callee → callee ∈ seen)
    {name : String} :
    name ∈ reached ↔ ∃ start ∈ seen, Relation.ReflTransGen (Calls graph) start name := by
  induction run with
  | done =>
    refine ⟨fun hm => ⟨name, hm, .refl⟩, ?_⟩
    rintro ⟨start, hs, way⟩
    induction way with
    | refl => exact hs
    | tail _ step ih => exact closed _ ih List.not_mem_nil _ step
  | @expanded first pending fresh seen reached new rest ih =>
    rw [List.cons_subset] at waiting
    have called {callee : String} (hc : callee ∈ fresh) : Calls graph first callee := by
      rw [new] at hc
      exact (List.mem_filter.mp hc).1
    rw [ih ?_ fun caller hs hp callee hc => ?_]
    · constructor
      · rintro ⟨start, hs, way⟩
        rcases List.mem_append.mp hs with hs | hs
        · exact ⟨start, hs, way⟩
        · exact ⟨first, waiting.1, way.head (called hs)⟩
      · rintro ⟨start, hs, way⟩
        exact ⟨start, List.mem_append_left _ hs, way⟩
    · exact List.append_subset.mpr ⟨List.subset_append_of_subset_left _ waiting.2,
        List.subset_append_right _ _⟩
    · rw [List.mem_append, not_or] at hp
      have hs := (List.mem_append.mp hs).resolve_right hp.2
      by_cases known : callee ∈ seen
      · exact List.mem_append_left _ known
      · refine List.mem_append_right _ ?_
        by_cases he : caller = first
        · rw [new]
          exact List.mem_filter.mpr ⟨he ▸ hc, by simpa using known⟩
        · exact absurd (closed caller hs (by simpa using ⟨he, hp.1⟩) callee hc) known

end CallGraph

/-- The search for what the start reaches is a run to its end. -/
theorem Registry.reachable_followed (registry : Registry) (start : String) :
    CallGraph.Followed registry.callGraph [start] [start] (registry.reachable start) := by
  unfold reachable
  rw [callGraph_eq]
  refine @CallGraph.followCalls_followed _ (start :: registry.names) (fun caller callee h => ?_)
    nodup_callees_graphOf _ _ _ (by simp) (by simp)
    (by simp [names])
  have := graphOf_closed caller callee h
  rw [names_graphOf] at this
  exact List.mem_cons_of_mem _ this

/-- The start reaches the productions to which calls lead from it. -/
theorem Registry.mem_reachable_iff {registry : Registry} {start name : String} :
    name ∈ registry.reachable start ↔
      Relation.ReflTransGen (CallGraph.Calls registry.callGraph) start name := by
  have run := registry.reachable_followed start
  rw [run.mem_iff (List.Subset.refl _) fun caller hs hp => absurd hs hp]
  simp

end BoundedLookahead
