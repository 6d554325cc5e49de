import BoundedLookahead.Proofs.LeftCalls

/-!
# Closing calls

A left-recursive production need not be named by a reported cycle: the search does not
enter a production again, so it names no production that only leads back to one it has
left. What it reports breaks every round trip. Each comes by a call that closes a reported
cycle, so a left-recursive production shares its round trips with the productions of one.
-/

namespace BoundedLookahead

namespace Registry

open CycleSearch

variable {registry : Registry}

/-- A closed call of a production to itself is a cycle of that production alone. -/
theorem singleton_of_closes {cycles : List (List String)} {step : String → String → Prop}
    (trips : ∀ cycle ∈ cycles, RoundTrip step cycle) {name : String}
    (h : Closes cycles name name) : [name] ∈ cycles := by
  obtain ⟨cycle, hm, hl, hf⟩ := h
  have distinct := (trips cycle hm).distinct
  cases cycle with
  | nil => cases hf
  | cons first rest =>
    obtain rfl := Option.some.inj hf
    cases rest with
    | nil => exact hm
    | cons second rest =>
      rw [List.getLast?_cons_cons] at hl
      exact absurd (List.mem_of_getLast? hl) (List.nodup_cons.mp distinct).1

/-- A production that leads to a call closing a round trip, and is led to from there,
shares its round trips with all members. -/
theorem shared_of_closes {cycles : List (List String)} {step : String → String → Prop}
    (trips : ∀ cycle ∈ cycles, RoundTrip step cycle) {name caller callee : String}
    (h : Closes cycles caller callee) (before : Relation.ReflTransGen step name caller)
    (after : Relation.ReflTransGen step callee name) :
    ∃ cycle ∈ cycles, ∀ member ∈ cycle,
      Relation.TransGen step name member ∧ Relation.TransGen step member name := by
  obtain ⟨cycle, hm, hl, hf⟩ := h
  obtain ⟨first, last, hf', hl', closed, between⟩ := (trips cycle hm).exists_ends
  obtain rfl : callee = first := Option.some.inj (hf.symm.trans hf')
  obtain rfl : caller = last := Option.some.inj (hl.symm.trans hl')
  refine ⟨cycle, hm, fun member hmember => ?_⟩
  obtain ⟨fromFirst, toLast⟩ := between member hmember
  have there : Relation.TransGen step name callee := .tail' before closed
  have back : Relation.TransGen step member callee := .tail' toLast closed
  exact ⟨there.trans_left fromFirst, back.trans_left after⟩

/-- Where ownership is in order, the reported cycles break the left recursion. Without the
calls that close them no production reaches itself in one or more left calls. So every
left-recursive production shares its round trips with all productions of a reported cycle,
one that calls itself is reported alone, and only left-recursive productions are named. -/
theorem validate_closingCalls {σ : Type} (options : Options) (state : σ) {final : Owners}
    (h : registry.owners = .ok final) :
    ∃ report, (registry.validate options state).result = .ok report ∧
      (∀ name, ¬Relation.TransGen (Unclosed report.cycles registry.LeftCalls) name name) ∧
      (∀ name, Relation.TransGen registry.LeftCalls name name →
        ∃ cycle ∈ report.cycles, ∀ member ∈ cycle,
          Relation.TransGen registry.LeftCalls name member ∧
            Relation.TransGen registry.LeftCalls member name) ∧
      (∀ name, registry.LeftCalls name name → [name] ∈ report.cycles) ∧
      ∀ cycle ∈ report.cycles, ∀ member ∈ cycle,
        Relation.TransGen registry.LeftCalls member member := by
  have grounded := grounded_production h
  obtain ⟨nullable, found, hn, _, hv⟩ := exists_validated options grounded
  have calls : CallGraph.Calls (registry.leftCallGraph nullable) = registry.LeftCalls := by
    funext caller callee
    exact propext (calls_leftCallGraph grounded hn)
  have closed := @graphOf_closed registry (Tree.leftCalls nullable)
  have trips : ∀ cycle ∈ registry.leftRecursiveCycles nullable, RoundTrip registry.LeftCalls cycle := by
    rw [← calls]
    exact roundTrip_of_mem_cycles closed
  have broken (name : String) : ¬Relation.TransGen
      (Unclosed (registry.leftRecursiveCycles nullable) registry.LeftCalls) name name := by
    rw [← calls]
    exact not_transGen_unclosed closed name
  refine ⟨_, (validate_result state).trans hv, broken, fun name loop => ?_, fun name call => ?_,
    fun cycle hm member hmember => (trips cycle hm).transGen hmember⟩
  · rcases transGen_unclosed_or loop with open' | ⟨caller, callee, closes, before, after⟩
    · exact absurd open' (broken name)
    · exact shared_of_closes trips closes before after
  · refine singleton_of_closes trips (Classical.not_not.mp fun open' => broken name ?_)
    exact .single ⟨call, open'⟩

/-- The grammar `A -> B x | C x | y`, `B -> A x | y`, `C -> B x | y`. -/
def sharedBack : Registry where
  nodes := #[⟨.nonTerminal "B" [], {}⟩, ⟨.terminal "x", {}⟩, ⟨.sequence [0, 1], {}⟩,
    ⟨.nonTerminal "C" [], {}⟩, ⟨.terminal "x", {}⟩, ⟨.sequence [3, 4], {}⟩, ⟨.terminal "y", {}⟩,
    ⟨.choice [2, 5, 6], {}⟩, ⟨.nonTerminal "A" [], {}⟩, ⟨.terminal "x", {}⟩,
    ⟨.sequence [8, 9], {}⟩, ⟨.terminal "y", {}⟩, ⟨.choice [10, 11], {}⟩,
    ⟨.nonTerminal "B" [], {}⟩, ⟨.terminal "x", {}⟩, ⟨.sequence [13, 14], {}⟩,
    ⟨.terminal "y", {}⟩, ⟨.choice [15, 16], {}⟩]
  productions := [{ name := "A", root := 7 }, { name := "B", root := 12 }, { name := "C", root := 17 }]
  tokens := ["x", "y"]

/-- In that grammar `C` leads to itself by `B` and `A`. The one reported cycle does not name
it, but shares the round trip. -/
theorem closingCalls_sharedBack : ∃ report, (sharedBack.validate {} ()).result = .ok report ∧
    Relation.TransGen sharedBack.LeftCalls "C" "C" ∧
    (∀ cycle ∈ report.cycles, "C" ∉ cycle) ∧
    ∃ cycle ∈ report.cycles, ∀ member ∈ cycle,
      Relation.TransGen sharedBack.LeftCalls "C" member ∧
        Relation.TransGen sharedBack.LeftCalls member "C" := by
  have owned : sharedBack.owners.toOption.isSome = true := by decide +kernel
  obtain ⟨final, ho⟩ := exists_eq_ok_of_isSome owned
  obtain ⟨report, hr, _, shared, _⟩ := validate_closingCalls {} () ho
  have call {caller callee : String} (production : Production) {alternative unit behind : NodeId}
      {others : List NodeId} (defined : sharedBack.isDefined callee = true)
      (hp : sharedBack.production? caller = some production)
      (root : sharedBack.expansion? production.root = some (.choice others))
      (taken : alternative ∈ others)
      (row : sharedBack.expansion? alternative = some (.sequence [unit, behind]))
      (called : sharedBack.expansion? unit = some (.nonTerminal callee [])) :
      sharedBack.LeftCalls caller callee :=
    ⟨defined, production, hp, unit, [], .alternative root taken
      (@Leads.unit sharedBack alternative unit unit [] [behind] row (by simp) .here), called⟩
  have cb : sharedBack.LeftCalls "C" "B" :=
    call { name := "C", root := 17 } rfl rfl rfl List.mem_cons_self rfl rfl
  have ba : sharedBack.LeftCalls "B" "A" :=
    call { name := "B", root := 12 } rfl rfl rfl List.mem_cons_self rfl rfl
  have ac : sharedBack.LeftCalls "A" "C" :=
    call { name := "A", root := 7 } rfl rfl rfl (List.mem_cons_of_mem _ List.mem_cons_self) rfl rfl
  have loop : Relation.TransGen sharedBack.LeftCalls "C" "C" := ((Relation.TransGen.single cb).tail ba).tail ac
  have computed : (sharedBack.validate {} ()).result.toOption.map (·.cycles) = some [["A", "B"]] := by
    decide +kernel
  obtain ⟨report', hr', cycles⟩ := Option.map_eq_some_iff.mp computed
  rw [hr] at hr'
  obtain rfl : report = report' := Option.some.inj hr'
  refine ⟨report, hr, loop, fun cycle hm => ?_, shared "C" loop⟩
  rw [cycles] at hm
  rw [List.mem_singleton.mp hm]
  decide

end Registry

end BoundedLookahead
