import BoundedLookahead.Proofs.Simulation

/-!
# Directives

What a lookahead directive gives a decision is settled before any first set is
found: the depth by its amount, and by its guard and its predicate whether it takes
the place of the computed test. Only the set of the guard depends on the grammar.
-/

namespace BoundedLookahead

namespace Tree

variable {tree : Tree} {directive : Directive Tree}

/-- What stands in a subtree stands in the tree. -/
theorem subtrees_subset {inner : Tree} (h : inner ∈ tree.subtrees) :
    inner.subtrees ⊆ tree.subtrees := by
  induction tree using Tree.induction with
  | stray id =>
    obtain rfl := List.mem_singleton.mp h
    exact List.Subset.refl _
  | node id location expansion ih =>
    rw [subtrees_eq] at h
    rcases List.mem_cons.mp h with rfl | h
    · exact List.Subset.refl _
    · obtain ⟨child, hc, h⟩ := List.mem_flatMap.mp h
      exact fun below hb => mem_subtrees_of_child hc (ih child hc h hb)

/-- The deepest directive of a tree looks no further than a bound when none of its directives
does. -/
theorem deepestAmount_le_iff {bound : Nat} : tree.deepestAmount ≤ bound ↔
    ∀ id location directive, Tree.node id location (.lookahead directive) ∈ tree.subtrees →
      ∀ amount ∈ directive.amount, amount ≤ bound := by
  have deepest (amounts : List Nat) (start : Nat) : amounts.foldl max start ≤ bound ↔
      start ≤ bound ∧ ∀ amount ∈ amounts, amount ≤ bound := by
    induction amounts generalizing start with
    | nil => simp
    | cons first amounts ih => rw [List.foldl_cons, ih, List.forall_mem_cons, Nat.max_le, and_assoc]
  unfold deepestAmount
  rw [deepest, and_iff_right (Nat.zero_le bound)]
  simp only [List.mem_filterMap]
  constructor
  · exact fun all id location directive inside amount given => all amount ⟨_, inside, given⟩
  · rintro all amount ⟨below, inside, given⟩
    match below, given with
    | .node id location (.lookahead directive), given => exact all id location directive inside amount given

/-- No directive in a tree looks further than the deepest. -/
theorem le_deepestAmount {id : NodeId} {location : Location}
    (h : Tree.node id location (.lookahead directive) ∈ tree.subtrees) {amount : Nat}
    (ha : directive.amount = some amount) : amount ≤ tree.deepestAmount :=
  deepestAmount_le_iff.mp (Nat.le_refl _) id location directive h amount ha

/-- The directive that leads a tree stands in the tree. -/
theorem exists_leading (h : tree.leadingDirective? = some directive) :
    ∃ id location, Tree.node id location (.lookahead directive) ∈ tree.subtrees := by
  induction tree using Tree.induction with
  | stray id => cases h
  | node id location expansion ih =>
    cases expansion with
    | sequence units =>
      cases units with
      | nil => cases h
      | cons first units =>
        obtain ⟨inner, place, found⟩ := ih first List.mem_cons_self h
        exact ⟨inner, place, mem_subtrees_of_child (by simp [children, Expansion.children]) found⟩
    | lookahead found =>
      cases h
      exact ⟨id, location, mem_subtrees_self _⟩
    | _ => cases h

/-- The directive of a repetition in a tree looks no further than the deepest. -/
theorem amount_le_of_loopDirective {id : NodeId} {location : Location} {kind : RepetitionKind}
    {body : Tree} {guard : Option Tree} (hd : loopDirective? body guard = some directive)
    (inside : Tree.node id location (.repetition kind body guard) ∈ tree.subtrees)
    {amount : Nat} (ha : directive.amount = some amount) : amount ≤ tree.deepestAmount := by
  have among {child : Tree} (hc : child ∈ (Expansion.repetition kind body guard).children) :
      child.subtrees ⊆ tree.subtrees := fun below hb =>
    subtrees_subset inside (mem_subtrees_of_child hc hb)
  unfold loopDirective? at hd
  split at hd
  · obtain ⟨leading, place, found⟩ := exists_leading hd
    exact le_deepestAmount (among (by simp [Expansion.children]) found) ha
  · next explicit place other =>
    cases hd
    have found := mem_subtrees_self (Tree.node explicit place (.lookahead directive))
    exact le_deepestAmount (among (by simp [Expansion.children]) found) ha
  · cases hd
    cases ha

end Tree

namespace Scope

/-- The depth of a decision with the directive. A depth of 0 is no depth. -/
def depthOf (scope : Scope) (directive : Option (Directive Tree)) : Nat :=
  ((directive.bind (·.amount)).filter fun amount => 0 < amount).getD scope.lookahead

/-- Whether the directive takes the place of the computed test. -/
def exempts (scope : Scope) (directive : Option (Directive Tree)) : Bool :=
  directive.any fun directive =>
    directive.guard.isSome || (scope.allowPredicates && directive.predicate.isSome)

variable {scope : Scope} {directive : Option (Directive Tree)}

/-- A decision looks at least one token ahead when the depth by default does. -/
theorem depthOf_pos (h : 0 < scope.lookahead) : 0 < scope.depthOf directive := by
  unfold depthOf
  cases hf : (directive.bind (·.amount)).filter fun amount => 0 < amount with
  | none => exact h
  | some amount => simpa using (Option.filter_eq_some_iff.mp hf).2

/-- A decision looks as far as its directive says or as far as by default. -/
theorem depthOf_le {bound : Nat} (h : scope.lookahead ≤ bound)
    (given : ∀ found ∈ directive, ∀ amount ∈ found.amount, amount ≤ bound) :
    scope.depthOf directive ≤ bound := by
  unfold depthOf
  cases hf : (directive.bind (·.amount)).filter fun amount => 0 < amount with
  | none => exact h
  | some amount =>
    obtain ⟨found, hd, ha⟩ := Option.bind_eq_some_iff.mp (Option.filter_eq_some_iff.mp hf).1
    exact given found hd amount ha

/-- A greater depth by default does not make a decision look less far. -/
theorem depthOf_mono {other : Scope} (h : scope.lookahead ≤ other.lookahead) :
    scope.depthOf directive ≤ other.depthOf directive := by
  unfold depthOf
  cases (directive.bind (·.amount)).filter fun amount => 0 < amount with
  | none => exact h
  | some amount => exact Nat.le_refl amount

end Scope

namespace Registry

variable {registry : Registry} {limit : Nat} {scope : Scope}

/-- The depth and the guard are those that the directive gives. -/
structure Gives (registry : Registry) (limit : Nat) (scope : Scope)
    (directive : Option (Directive Tree)) (depth : Nat) (guard : Option Guard) : Prop where
  /-- The depth is that of the directive. -/
  depth_eq : depth = scope.depthOf directive
  /-- The guard overrides when the directive says so. -/
  overrides_eq : Guard.overridesIn guard = scope.exempts directive
  /-- A syntactic guard has the first set of its expansion at that depth. -/
  syntactic_eq : ∀ found ∈ guard, ∀ node set, found.syntactic = some (node, set) →
    ∃ given ∈ directive, ∃ tree ∈ given.guard, node = tree.id ∧
      registry.firstOf limit node depth = .ok set

/-- A directive that is read without failure gives that. -/
theorem gives_of_guard {directive : Option (Directive Tree)} {depth : Nat} {guard : Option Guard}
    (h : (registry.oracle limit).guard scope directive = .ok (depth, guard)) :
    registry.Gives limit scope directive depth guard := by
  cases directive with
  | none =>
    cases h
    exact ⟨rfl, rfl, by simp⟩
  | some directive =>
    obtain ⟨amount, predicate, expansion⟩ := directive
    have allowed : (if scope.allowPredicates = true then predicate else none).isSome =
        (scope.allowPredicates && predicate.isSome) := by
      cases scope.allowPredicates <;> rfl
    have last {syntactic : Option (NodeId × FirstSet)} {asked : Option String}
        (asks : asked.isSome = (scope.allowPredicates && predicate.isSome))
        (same : syntactic.isSome = expansion.isSome)
        (sets : ∀ node set, syntactic = some (node, set) → ∃ tree ∈ expansion, node = tree.id ∧
          registry.firstOf limit node (scope.depthOf (some ⟨amount, predicate, expansion⟩)) = .ok set)
        (h : (if (amount.filter fun amount => 0 < amount).isNone && syntactic.isNone &&
            asked.isNone then
            pure (scope.depthOf (some ⟨amount, predicate, expansion⟩), none)
          else pure (scope.depthOf (some ⟨amount, predicate, expansion⟩),
            some ⟨amount.filter fun amount => 0 < amount, syntactic, asked⟩) :
          Except AnalysisError (Nat × Option Guard)) = .ok (depth, guard)) :
        registry.Gives limit scope (some ⟨amount, predicate, expansion⟩) depth guard := by
      split at h
      · next plain =>
        cases h
        simp only [Bool.and_eq_true, Option.isNone_iff_eq_none] at plain
        refine ⟨rfl, ?_, by simp⟩
        simp [Guard.overridesIn, Scope.exempts, ← same, ← asks, plain.1.2, plain.2]
      · cases h
        refine ⟨rfl, ?_, fun found hfound node set he => ?_⟩
        · simp [Guard.overridesIn, Guard.overrides, Scope.exempts, same, asks]
        · obtain rfl := Option.mem_some_iff.mp hfound
          obtain ⟨tree, ht, hn, hf⟩ := sets node set he
          exact ⟨_, rfl, tree, ht, hn, hf⟩
    cases expansion with
    | none =>
      obtain ⟨syntactic, hs, h⟩ := bind_eq_ok.mp h
      cases hs
      have same : (none : Option (NodeId × FirstSet)).isSome = (none : Option Tree).isSome := rfl
      exact last allowed same (by simp) h
    | some tree =>
      obtain ⟨set, hf, h⟩ := bind_eq_ok.mp h
      obtain ⟨syntactic, hs, h⟩ := bind_eq_ok.mp h
      cases hs
      have same : (some (tree.id, set)).isSome = (some tree).isSome := rfl
      refine last allowed same (fun node found he => ?_) h
      cases he
      exact ⟨tree, rfl, rfl, hf⟩

end Registry

end BoundedLookahead
