import BoundedLookahead.Nullability
import BoundedLookahead.Proofs.Beginnings

/-!
# The empty word

The sweeps for nullable productions are read as a run without fuel: a sweep fails,
finds nothing new or is followed by another. What they find is justified, and at
the end nothing is left to find. On grounded trees the sweeps never fail, and a node
is found nullable exactly when it derives the empty word.
-/

namespace BoundedLookahead

/-- The property of names passes to a rule that is nullable when the names are. -/
def Justifies (rules : List Rule) (P : String → Prop) : Prop :=
  ∀ rule ∈ rules, ∀ known : List String, (∀ name ∈ known, P name) →
    rule.tree.nullable? known = .ok true → P rule.name

/-- What a sweep that fails nowhere finds. -/
structure NullableSweep (rules : List Rule) (names found : List String) : Prop where
  /-- What was known stays known. -/
  kept : names <+: found
  /-- No name is found twice. -/
  distinct : names.Nodup → found.Nodup
  /-- Only names of rules are found. -/
  named : ∀ name ∈ found, name ∈ names ∨ name ∈ rules.map Rule.name
  /-- What is found is justified. -/
  justified : ∀ P : String → Prop, Justifies rules P → (∀ name ∈ names, P name) →
    ∀ name ∈ found, P name
  /-- Where nothing is found, every other rule has been tried in vain. -/
  tried : found.length = names.length →
    ∀ rule ∈ rules, rule.name ∈ names ∨ rule.tree.nullable? names = .ok false

section

variable {rules : List Rule} {names found : List String} {cause : AnalysisError}

/-- A rule that is known or has been tried in vain adds nothing to a sweep. -/
theorem NullableSweep.passed {rule : Rule} (h : NullableSweep rules names found)
    (old : rule.name ∈ names ∨ rule.tree.nullable? names = .ok false) :
    NullableSweep (rule :: rules) names found where
  kept := h.kept
  distinct := h.distinct
  named name hm := (h.named name hm).imp_right (List.mem_cons_of_mem _)
  justified P hP hp := h.justified P (fun other hm => hP other (List.mem_cons_of_mem _ hm)) hp
  tried hl := List.forall_mem_cons.mpr ⟨old, h.tried hl⟩

/-- A rule that is found is known to the rest of a sweep. -/
theorem NullableSweep.added {rule : Rule} (h : NullableSweep rules (names ++ [rule.name]) found)
    (new : rule.name ∉ names) (ht : rule.tree.nullable? names = .ok true) :
    NullableSweep (rule :: rules) names found where
  kept := (List.prefix_append names [rule.name]).trans h.kept
  distinct hn := by
    refine h.distinct (List.nodup_append.mpr ⟨hn, by simp, fun a ha b hb he => new ?_⟩)
    rw [List.mem_singleton] at hb
    rwa [← hb, ← he]
  named name hm := by
    rcases h.named name hm with hm | hm
    · rw [List.mem_append, List.mem_singleton] at hm
      exact hm.imp_right fun he : name = rule.name => he ▸ List.mem_cons_self
    · exact .inr (List.mem_cons_of_mem _ hm)
  justified P hP hp := by
    refine h.justified P (fun other hm => hP other (List.mem_cons_of_mem _ hm)) ?_
    rw [List.forall_mem_append, List.forall_mem_singleton]
    exact ⟨hp, hP rule List.mem_cons_self names hp ht⟩
  tried hl := by
    have := h.kept.length_le
    rw [List.length_append, List.length_singleton] at this
    omega

/-- A sweep finds that. -/
theorem sweepNullable_ok (h : sweepNullable rules names = .ok found) :
    NullableSweep rules names found := by
  induction rules generalizing names with
  | nil =>
    cases h
    exact ⟨List.prefix_refl _, fun hn => hn, fun _ hm => .inl hm, fun P _ hp => hp, by simp⟩
  | cons rule rules ih =>
    simp only [sweepNullable] at h
    split at h
    · next known => exact (ih h).passed (.inl (by simpa using known))
    · next unknown =>
      obtain ⟨flag, hf, h⟩ := bind_eq_ok.mp h
      cases flag with
      | false => exact (ih h).passed (.inr hf)
      | true => exact (ih h).added (by simpa using unknown) hf

/-- A sweep fails only where the walk over the tree of a rule does. -/
theorem sweepNullable_error (h : sweepNullable rules names = .error cause) :
    ∃ rule ∈ rules, ∃ known, rule.tree.nullable? known = .error cause := by
  induction rules generalizing names with
  | nil => cases h
  | cons rule rules ih =>
    have later {names : List String} (h : sweepNullable rules names = .error cause) :
        ∃ other ∈ rule :: rules, ∃ known, other.tree.nullable? known = .error cause := by
      obtain ⟨other, hm, ho⟩ := ih h
      exact ⟨other, List.mem_cons_of_mem _ hm, ho⟩
    simp only [sweepNullable] at h
    split at h
    · exact later h
    · rcases bind_eq_error.mp h with h | ⟨flag, _, h⟩
      · exact ⟨rule, List.mem_cons_self, names, h⟩
      · exact later h

end

/-- The sweeps over the rules from the names known so far to their outcome. -/
inductive Closing (rules : List Rule) :
    List String → Except AnalysisError (List String) → Prop
  /-- A sweep fails. -/
  | failed {names : List String} {cause : AnalysisError}
    (h : sweepNullable rules names = .error cause) : Closing rules names (.error cause)
  /-- A sweep finds nothing. -/
  | stable {names : List String} (h : sweepNullable rules names = .ok names) :
    Closing rules names (.ok names)
  /-- A sweep finds more names, and the next one uses them. -/
  | grown {names found : List String} {outcome : Except AnalysisError (List String)}
    (h : sweepNullable rules names = .ok found) (more : names.length < found.length)
    (rest : Closing rules found outcome) : Closing rules names outcome

section

variable {rules : List Rule} {names final : List String}
  {outcome : Except AnalysisError (List String)}

/-- Sweeping with enough fuel is a run to its end: every sweep but the last finds the
name of another rule. -/
theorem closeNullable_closing (fuel : Nat) (names : List String) (distinct : names.Nodup)
    (named : names ⊆ rules.map Rule.name) (enough : rules.length < names.length + fuel) :
    Closing rules names (closeNullable rules fuel names) := by
  induction fuel generalizing names with
  | zero =>
    have := distinct.length_le_of_subset named
    rw [List.length_map] at this
    omega
  | succ fuel ih =>
    unfold closeNullable
    cases hs : sweepNullable rules names with
    | error cause => exact .failed hs
    | ok found =>
      have sweep := sweepNullable_ok hs
      have hle := sweep.kept.length_le
      rw [ok_bind]
      split
      · next hl =>
        obtain rfl := sweep.kept.eq_of_length hl.symm
        exact .stable hs
      · next hl =>
        refine .grown hs (by omega) (ih found (sweep.distinct distinct) (fun name hm => ?_) (by omega))
        exact (sweep.named name hm).elim (fun hm => named hm) id

/-- What the sweeps find is justified. -/
theorem Closing.justified (run : Closing rules names outcome) (ho : outcome = .ok final)
    {P : String → Prop} (hP : Justifies rules P) (hp : ∀ name ∈ names, P name) :
    ∀ name ∈ final, P name := by
  induction run with
  | failed _ => cases ho
  | stable _ =>
    cases ho
    exact hp
  | grown h _ _ ih => exact ih ho ((sweepNullable_ok h).justified P hP hp)

/-- The sweeps leave nothing to find. -/
theorem Closing.tried (run : Closing rules names outcome) (ho : outcome = .ok final) :
    ∀ rule ∈ rules, rule.name ∈ final ∨ rule.tree.nullable? final = .ok false := by
  induction run with
  | failed _ => cases ho
  | stable h =>
    cases ho
    exact (sweepNullable_ok h).tried rfl
  | grown _ _ _ ih => exact ih ho

/-- The sweeps fail only where the walk over the tree of a rule does. -/
theorem Closing.error (run : Closing rules names outcome) {cause : AnalysisError}
    (ho : outcome = .error cause) :
    ∃ rule ∈ rules, ∃ known, rule.tree.nullable? known = .error cause := by
  induction run with
  | failed h =>
    cases ho
    exact sweepNullable_error h
  | stable _ => cases ho
  | grown _ _ _ ih => exact ih ho

end

namespace Registry

variable {registry : Registry} {id : NodeId} {names : List String}

/-- The rules are the productions with the trees of their roots. -/
theorem mem_rules {rule : Rule} : rule ∈ registry.rules ↔
    ∃ production ∈ registry.productions, rule = ⟨production, registry.tree production.root⟩ := by
  unfold rules
  rw [List.mem_map]
  exact exists_congr fun production => and_congr_right fun _ => eq_comm

/-- The names of the rules are those of the productions. -/
theorem names_rules (registry : Registry) : registry.rules.map Rule.name = registry.names := by
  simp [names, rules, Rule.name, Function.comp_def]

/-- The search for nullable productions is a run of sweeps to its end. -/
theorem nullableNames_closing (registry : Registry) :
    Closing registry.rules [] registry.nullableNames :=
  closeNullable_closing _ _ List.nodup_nil (by simp) (by simp [rules])

/-- On grounded productions the search for nullable ones never fails. -/
theorem exists_nullableNames
    (grounded : ∀ production ∈ registry.productions, registry.Grounded production.root) :
    ∃ names, registry.nullableNames = .ok names := by
  cases hn : registry.nullableNames with
  | ok names => exact ⟨names, rfl⟩
  | error cause =>
    obtain ⟨rule, hr, known, hk⟩ := registry.nullableNames_closing.error hn
    obtain ⟨production, hp, rfl⟩ := mem_rules.mp hr
    rw [Tree.nullable?_eq known _ (grounded production hp).whole] at hk
    cases hk

/-- The production of that name derives the empty word. -/
def IsNullable (registry : Registry) (name : String) : Prop :=
  ∃ production, registry.production? name = some production ∧
    registry.Derives .repeated production.root []

/-- A grounded node that is nullable given productions that are derives the empty
word. -/
theorem Grounded.derives_nil (h : registry.Grounded id)
    (known : ∀ name ∈ names, registry.IsNullable name)
    (hn : (registry.tree id).nullable names = true) : registry.Derives .repeated id [] := by
  induction h with
  | @node id entry found below ih =>
    obtain ⟨expansion, location⟩ := entry
    have he : registry.expansion? id = some expansion := by simp [expansion?, found]
    rw [(Grounded.node found below).tree_eq found] at hn
    cases expansion with
    | terminal kind => cases hn
    | nonTerminal name args =>
      obtain ⟨production, hp, hd⟩ := known name (by simpa [Expansion.map, Tree.nullable] using hn)
      exact .nonTerminal he hp hd
    | sequence units =>
      simp only [Expansion.map, Tree.nullable, Tree.allNullable_eq_all, List.all_map,
        List.all_eq_true] at hn
      have : registry.Derives .repeated id (Pieces.word (units.map fun unit => (unit, []))) := by
        refine .sequence _ ?_ fun piece hm => ?_
        · simpa [Pieces.nodes, Function.comp_def] using he
        · obtain ⟨unit, hu, rfl⟩ := List.mem_map.mp hm
          exact ih unit hu (hn unit hu)
      rwa [show Pieces.word (units.map fun unit => (unit, [])) = [] from
        List.flatMap_eq_nil_iff.mpr (by simp)] at this
    | choice alternatives =>
      simp only [Expansion.map, Tree.nullable, Tree.anyNullable_eq_any, List.any_map,
        List.any_eq_true] at hn
      obtain ⟨alternative, ha, hn⟩ := hn
      exact .choice he ha (ih alternative ha hn)
    | repetition kind body guard =>
      cases kind with
      | zeroOrOne => exact .repetition [] he (by simp [Iteration.repeated]) (by simp)
      | zeroOrMore => exact .repetition [] he (by simp [Iteration.repeated]) (by simp)
      | oneOrMore =>
        have hb := ih body (by simp [Expansion.children]) hn
        exact .repetition [[]] he (by simp [Iteration.repeated]) (by simpa using hb)
    | lookahead directive => exact .lookahead he
    | action code => exact .action he
    | tryBlock body handlers cleanup =>
      exact .tryBlock he (ih body (by simp [Expansion.children]) hn)

/-- A grounded node that derives the empty word is nullable, given all nullable
productions. -/
theorem Derives.nullable {may : Iteration} {word : Word} (hd : registry.Derives may id word)
    (h : registry.Grounded id)
    (grounded : ∀ production ∈ registry.productions, registry.Grounded production.root)
    (closed : ∀ production ∈ registry.productions,
      (registry.tree production.root).nullable names = true → production.name ∈ names)
    (atLeast : ∀ runs, may .oneOrMore runs → runs ≠ 0) (empty : word = []) :
    (registry.tree id).nullable names = true := by
  induction hd with
  | terminal _ => cases empty
  | @nonTerminal id name args production word he defined _ ih =>
    have hp : production ∈ registry.productions := List.mem_of_find?_eq_some defined
    have hn : production.name = name := by simpa using List.find?_some defined
    obtain ⟨location, ht⟩ := h.exists_tree_eq he
    rw [ht, Expansion.map, Tree.nullable, List.contains_iff_mem, ← hn]
    exact closed production hp (ih (grounded production hp) empty)
  | @sequence id pieces he units ih =>
    obtain ⟨location, ht⟩ := h.exists_tree_eq he
    simp only [ht, Expansion.map, Tree.nullable, Tree.allNullable_eq_all, List.all_map,
      List.all_eq_true]
    intro unit hu
    obtain ⟨piece, hm, rfl⟩ := List.mem_map.mp hu
    refine ih piece hm (h.of_expansion he _ (Pieces.mem_nodes hm)) ?_
    exact List.flatMap_eq_nil_iff.mp empty piece hm
  | @choice id alternative alternatives word he taken _ ih =>
    obtain ⟨location, ht⟩ := h.exists_tree_eq he
    simp only [ht, Expansion.map, Tree.nullable, Tree.anyNullable_eq_any, List.any_map,
      List.any_eq_true]
    exact ⟨alternative, taken, ih (h.of_expansion he _ taken) empty⟩
  | @repetition id body kind guard words he runs bodies ih =>
    obtain ⟨location, ht⟩ := h.exists_tree_eq he
    rw [ht]
    cases kind with
    | zeroOrOne => rfl
    | zeroOrMore => rfl
    | oneOrMore =>
      cases words with
      | nil => exact absurd rfl (atLeast _ runs)
      | cons first words =>
        rw [Expansion.map, Tree.nullable]
        refine ih first List.mem_cons_self (h.of_expansion he _ (by simp [Expansion.children])) ?_
        exact List.flatten_eq_nil_iff.mp empty first List.mem_cons_self
  | lookahead he =>
    obtain ⟨location, ht⟩ := h.exists_tree_eq he
    rw [ht]
    rfl
  | action he =>
    obtain ⟨location, ht⟩ := h.exists_tree_eq he
    rw [ht]
    rfl
  | @tryBlock id body handlers cleanup word he _ ih =>
    obtain ⟨location, ht⟩ := h.exists_tree_eq he
    rw [ht, Expansion.map, Tree.nullable]
    exact ih (h.of_expansion he _ (by simp [Expansion.children])) empty

section

variable (grounded : ∀ production ∈ registry.productions, registry.Grounded production.root)
  (hn : registry.nullableNames = .ok names)

include grounded hn

/-- Only productions that derive the empty word are found. -/
theorem isNullable_of_mem_nullableNames : ∀ name ∈ names, registry.IsNullable name := by
  refine registry.nullableNames_closing.justified hn ?_ (by simp)
  intro rule hr known hk ht
  obtain ⟨production, hp, rfl⟩ := mem_rules.mp hr
  rw [Tree.nullable?_eq known _ (grounded production hp).whole, Except.ok.injEq] at ht
  exact ⟨production, production?_eq_some hp, (grounded production hp).derives_nil hk ht⟩

/-- A production that is nullable, given all that are found, is found. -/
theorem mem_nullableNames_of_nullable {production : Production}
    (hp : production ∈ registry.productions)
    (ht : (registry.tree production.root).nullable names = true) : production.name ∈ names := by
  have tried := registry.nullableNames_closing.tried hn ⟨production, registry.tree production.root⟩
    (mem_rules.mpr ⟨production, hp, rfl⟩)
  rw [Tree.nullable?_eq names _ (grounded production hp).whole, ht] at tried
  exact tried.resolve_right (by simp)

/-- A node below the productions is found nullable exactly when it derives the empty
word. -/
theorem Grounded.nullable_iff (h : registry.Grounded id) :
    (registry.tree id).nullable names = true ↔ registry.Derives .repeated id [] := by
  refine ⟨h.derives_nil (isNullable_of_mem_nullableNames grounded hn), fun hd => ?_⟩
  exact hd.nullable h grounded (fun production hp => mem_nullableNames_of_nullable grounded hn hp)
    (by simp only [Iteration.repeated]; omega) rfl

/-- The productions found are those that derive the empty word. -/
theorem mem_nullableNames_iff {name : String} : name ∈ names ↔ registry.IsNullable name := by
  refine ⟨isNullable_of_mem_nullableNames grounded hn name, ?_⟩
  rintro ⟨production, found, hd⟩
  have hp : production ∈ registry.productions := List.mem_of_find?_eq_some found
  obtain rfl : production.name = name := by simpa using List.find?_some found
  exact mem_nullableNames_of_nullable grounded hn hp
    (((grounded production hp).nullable_iff grounded hn).mpr hd)

end

/-- On a grounded node the careful walk answers what its tree does. -/
theorem Grounded.isNullable_eq (h : registry.Grounded id) :
    (registry.nullableNodes names).isNullable id = .ok ((registry.tree id).nullable names) := by
  unfold nullableNodes Harvest.isNullable
  rw [h.valueIn_harvest]
  exact Tree.nullable?_eq names _ h.whole

/-- Nullability is exact. On a forest the sweeps come to an end, the productions they
find are those that derive the empty word, and a node of a definition is nullable
exactly when it derives the empty word. -/
theorem nullability_exact {final : Owners} (forest : registry.owners = .ok final) :
    ∃ names, registry.nullableNames = .ok names ∧ Closing registry.rules [] (.ok names) ∧
      (∀ name, name ∈ names ↔ registry.IsNullable name) ∧
      ∀ id, registry.InDefinition id → ∃ flag,
        (registry.nullableNodes names).isNullable id = .ok flag ∧
          (flag = true ↔ registry.Derives .repeated id []) := by
  have grounded := grounded_production forest
  obtain ⟨names, hn⟩ := exists_nullableNames grounded
  refine ⟨names, hn, hn ▸ registry.nullableNames_closing,
    fun name => mem_nullableNames_iff grounded hn, fun id inside => ?_⟩
  have below := inside.grounded forest
  exact ⟨_, below.isNullable_eq, below.nullable_iff grounded hn⟩

/-- The grammar `S -> A B; A -> B+; B -> b | ( ); C -> D; D -> C`. -/
def nestedEmpties : Registry where
  nodes := #[⟨.nonTerminal "A" [], {}⟩, ⟨.nonTerminal "B" [], {}⟩, ⟨.sequence [0, 1], {}⟩,
    ⟨.nonTerminal "B" [], {}⟩, ⟨.repetition .oneOrMore 3 none, {}⟩,
    ⟨.terminal "b", {}⟩, ⟨.action "", {}⟩, ⟨.choice [5, 6], {}⟩,
    ⟨.nonTerminal "D" [], {}⟩, ⟨.nonTerminal "C" [], {}⟩]
  productions := [{ name := "S", root := 2 }, { name := "A", root := 4 },
    { name := "B", root := 7 }, { name := "C", root := 8 }, { name := "D", root := 9 }]
  tokens := ["b"]

/-- Three sweeps are needed to find that `S` derives the empty word; productions that
only call each other do not. -/
theorem nullability_nestedEmpties : nestedEmpties.nullableNames = .ok ["B", "A", "S"] ∧
    nestedEmpties.Derives .repeated 2 [] ∧ ¬nestedEmpties.Derives .repeated 8 [] := by
  have owned : nestedEmpties.owners.toOption.isSome = true := by decide +kernel
  obtain ⟨final, forest⟩ := exists_eq_ok_of_isSome owned
  obtain ⟨names, hn, _, _, nodes⟩ := nullability_exact forest
  have computed : nestedEmpties.nullableNames = .ok ["B", "A", "S"] := by decide +kernel
  obtain rfl : ["B", "A", "S"] = names := by
    rw [computed] at hn
    exact Except.ok.inj hn
  have flagOf (position : Nat) (h : position < nestedEmpties.productions.length) (flag : Bool)
      (hf : (nestedEmpties.nullableNodes ["B", "A", "S"]).isNullable
        nestedEmpties.productions[position].root = .ok flag) :
      flag = true ↔
        nestedEmpties.Derives .repeated nestedEmpties.productions[position].root [] := by
    obtain ⟨other, ho, exact⟩ := nodes _ (.production (List.getElem_mem h))
    rw [hf] at ho
    rwa [Except.ok.inj ho]
  refine ⟨computed, (flagOf 0 (by decide) true (by decide +kernel)).mp rfl, fun hd => ?_⟩
  cases (flagOf 3 (by decide) false (by decide +kernel)).mpr hd

end Registry

end BoundedLookahead
