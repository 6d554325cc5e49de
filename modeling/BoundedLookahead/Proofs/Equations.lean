import BoundedLookahead.Solution
import BoundedLookahead.Proofs.Arena
import BoundedLookahead.Proofs.FirstSets
import BoundedLookahead.Proofs.Outcome

/-!
# Equations of first sets

The first set of an expansion follows by an equation from those of its children and of the
productions. The equation looks at every child and knows no limit. A walk that succeeds
finds the set of the equation all the same, since it leaves a row only when nothing that
follows can change its words. By the equations more sets of the productions give more.
-/

namespace BoundedLookahead

/-- The first set of an expansion by its equation, given those of its children and of the
productions. -/
def Expansion.plainFirst {α : Type} (first : α → FirstSet) (sets : String → FirstSet) (k : Nat) :
    Expansion α → FirstSet
  | .terminal kind => FirstSet.token kind
  | .nonTerminal name _ => sets name
  | .sequence units => units.foldl (fun before unit => before.concat (first unit) k) FirstSet.epsilon
  | .choice alternatives =>
    alternatives.foldl (fun others alternative => others.union (first alternative)) FirstSet.empty
  | .repetition .oneOrMore body _ => first body
  | .repetition _ body _ => (first body).union FirstSet.epsilon
  | .lookahead _ => FirstSet.epsilon
  | .action _ => FirstSet.epsilon
  | .tryBlock body _ _ => first body

section

variable {α : Type} {first : α → Except AnalysisError FirstSet} {plain later : α → FirstSet} {k : Nat}

/-- A walk over a row that succeeds finds the concatenation of the whole row. -/
theorem foldl_concat_of_firstOfSequence {units : List α} {before set : FirstSet}
    (children : ∀ unit ∈ units, ∀ a, first unit = .ok a → plain unit = a)
    (hl : ∀ word ∈ before.words, word.length ≤ k)
    (h : firstOfSequence first k before units = .ok set) :
    units.foldl (fun before unit => before.concat (plain unit) k) before = set := by
  induction units generalizing before with
  | nil =>
    cases h
    rfl
  | cons unit units ih =>
    simp only [firstOfSequence] at h
    split at h
    · next hs =>
      -- the walk stops here, and the equation goes on without effect
      cases h
      exact FirstSet.foldl_concat_of_saturated plain (unit :: units) hs hl
    · obtain ⟨found, hf, h⟩ := bind_eq_ok.mp h
      rw [List.forall_mem_cons] at children
      rw [List.foldl_cons, children.1 found hf]
      exact ih children.2 (fun word hm => FirstSet.length_le_of_mem_concat_words hm) h

/-- A walk over alternatives that succeeds finds their union. -/
theorem foldl_union_of_firstOfChoice {alternatives : List α} {others set : FirstSet}
    (children : ∀ unit ∈ alternatives, ∀ a, first unit = .ok a → plain unit = a)
    (h : firstOfChoice first others alternatives = .ok set) :
    alternatives.foldl (fun others alternative => others.union (plain alternative)) others = set := by
  induction alternatives generalizing others with
  | nil =>
    cases h
    rfl
  | cons alternative alternatives ih =>
    obtain ⟨found, hf, h⟩ := bind_eq_ok.mp h
    rw [List.forall_mem_cons] at children
    rw [List.foldl_cons, children.1 found hf]
    exact ih children.2 h

/-- A walk over an expansion that succeeds finds the set of its equation. -/
theorem Expansion.plainFirst_of_first {expansion : Expansion α} {sets : SetTable} {set : FirstSet}
    (children : ∀ child ∈ expansion.children, ∀ a, first child = .ok a → plain child = a)
    (h : expansion.first first sets k = .ok set) : expansion.plainFirst plain sets.find k = set := by
  cases expansion with
  | sequence units =>
    exact foldl_concat_of_firstOfSequence children
      (fun word hm => absurd hm Std.ExtTreeSet.not_mem_empty) h
  | choice alternatives => exact foldl_union_of_firstOfChoice children h
  | repetition kind body guard =>
    have hc := children body (by simp [Expansion.children])
    cases kind with
    | oneOrMore => exact hc set h
    | _ =>
      obtain ⟨found, hf, h⟩ := bind_eq_ok.mp h
      cases h
      exact congrArg (·.union FirstSet.epsilon) (hc found hf)
  | tryBlock body handlers cleanup => exact children body (by simp [Expansion.children]) set h
  | _ =>
    cases h
    rfl

/-- The equation of an expansion gives more for more. -/
theorem Expansion.plainFirst_mono {expansion : Expansion α} {sets others : String → FirstSet}
    (children : ∀ child ∈ expansion.children, plain child ≤ later child)
    (tables : ∀ name, sets name ≤ others name) :
    expansion.plainFirst plain sets k ≤ expansion.plainFirst later others k := by
  have row (step : FirstSet → FirstSet → FirstSet)
      (mono : ∀ a b c d, a ≤ c → b ≤ d → step a b ≤ step c d) (units : List α)
      (below : ∀ unit ∈ units, plain unit ≤ later unit) {a b : FirstSet} (hab : a ≤ b) :
      units.foldl (fun before unit => step before (plain unit)) a ≤
        units.foldl (fun before unit => step before (later unit)) b := by
    induction units generalizing a b with
    | nil => exact hab
    | cons unit units ih =>
      rw [List.forall_mem_cons] at below
      exact ih below.2 (mono _ _ _ _ hab below.1)
  cases expansion with
  | nonTerminal name args => exact tables name
  | sequence units =>
    exact row (fun before set => before.concat set k) (fun _ _ _ _ => FirstSet.concat_mono) units
      children (FirstSet.le_refl _)
  | choice alternatives =>
    exact row FirstSet.union (fun _ _ _ _ => FirstSet.union_mono) alternatives children
      (FirstSet.le_refl _)
  | repetition kind body guard =>
    have hc := children body (by simp [Expansion.children])
    cases kind with
    | oneOrMore => exact hc
    | _ => exact FirstSet.union_mono hc (FirstSet.le_refl _)
  | tryBlock body handlers cleanup => exact children body (by simp [Expansion.children])
  | _ => exact FirstSet.le_refl _

/-- It looks at nothing but the children. -/
theorem Expansion.plainFirst_congr {expansion : Expansion α} {sets : String → FirstSet}
    (children : ∀ child ∈ expansion.children, plain child = later child) :
    expansion.plainFirst plain sets k = expansion.plainFirst later sets k := by
  refine FirstSet.le_antisymm (plainFirst_mono (fun child hc => ?_) fun name => FirstSet.le_refl _)
    (plainFirst_mono (fun child hc => ?_) fun name => FirstSet.le_refl _)
  · rw [children child hc]
    exact FirstSet.le_refl _
  · rw [children child hc]
    exact FirstSet.le_refl _

/-- Children may be replaced before their sets are found. -/
theorem Expansion.plainFirst_map {β : Type} (f : β → α) (sets : String → FirstSet)
    (expansion : Expansion β) :
    (expansion.map f).plainFirst plain sets k =
      expansion.plainFirst (fun child => plain (f child)) sets k := by
  cases expansion with
  | sequence units => exact List.foldl_map
  | choice alternatives => exact List.foldl_map
  | repetition kind body guard => cases kind <;> rfl
  | _ => rfl

end

namespace Registry

variable {registry : Registry} {id : NodeId} {sets others : String → FirstSet} {k : Nat}

/-- The first set of a node by the equations, given the sets of the productions. -/
def plainFirst (registry : Registry) (sets : String → FirstSet) (k : Nat) (id : NodeId) : FirstSet :=
  (registry.tree id).fold (fun _ => FirstSet.empty) fun _ _ expansion =>
    expansion.plainFirst Thunk.get sets k

/-- The set of a grounded node satisfies its equation. -/
theorem Grounded.plainFirst_eq {expansion : Expansion NodeId}
    (h : registry.Grounded id) (he : registry.expansion? id = some expansion) :
    registry.plainFirst sets k id = expansion.plainFirst (registry.plainFirst sets k) sets k := by
  obtain ⟨location, ht⟩ := h.exists_tree_eq he
  unfold plainFirst
  rw [ht, Tree.fold_node, Expansion.map_map, Expansion.plainFirst_map]
  rfl

/-- The equations give more for more. -/
theorem Grounded.plainFirst_mono (h : registry.Grounded id)
    (tables : ∀ name, sets name ≤ others name) :
    registry.plainFirst sets k id ≤ registry.plainFirst others k id := by
  induction h with
  | @node id entry found below ih =>
    have he : registry.expansion? id = some entry.expansion := by simp [expansion?, found]
    have h : registry.Grounded id := .node found below
    rw [h.plainFirst_eq he, h.plainFirst_eq he]
    exact Expansion.plainFirst_mono ih tables

end Registry

end BoundedLookahead
