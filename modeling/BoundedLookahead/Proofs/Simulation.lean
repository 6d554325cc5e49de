import BoundedLookahead.Proofs.ChoicePoints

/-!
# Simulations of the resolver

The walks of the library are written once for every kind of computation. A
relation between computations and outcomes that is respected by single steps is
respected by these walks, as soon as it relates the first sets they ask for. They
ask only for nodes of the trees they walk.
-/

namespace BoundedLookahead

/-- A relation between computations of some kind and outcomes that their steps
respect. -/
structure Simulation (m : Type → Type) [Monad m] where
  /-- The computation answers to the outcome. -/
  relates : {α : Type} → m α → Except AnalysisError α → Prop
  /-- Finishing with a value answers to that value. -/
  pure : ∀ {α : Type} (a : α), relates (Pure.pure a) (.ok a)
  /-- Two steps answer to two steps. -/
  bind : ∀ {α β : Type} {x : m α} {y : Except AnalysisError α} {f : α → m β}
    {g : α → Except AnalysisError β},
    relates x y → (∀ a, y = .ok a → relates (f a) (g a)) → relates (x >>= f) (y >>= g)

namespace Tree

/-- Every node of the tree is among the given ones. -/
def Within (ids : NodeId → Prop) (tree : Tree) : Prop := ∀ below ∈ tree.subtrees, ids below.id

variable {ids : NodeId → Prop} {tree inner : Tree}

/-- The subtrees of a child are subtrees of its parent. -/
theorem mem_subtrees_of_child (hc : inner ∈ tree.children) {below : Tree}
    (h : below ∈ inner.subtrees) : below ∈ tree.subtrees := by
  rw [subtrees_eq tree]
  exact List.mem_cons_of_mem _ (List.mem_flatMap.mpr ⟨inner, hc, h⟩)

/-- A tree is one of its subtrees. -/
theorem mem_subtrees_self (tree : Tree) : tree ∈ tree.subtrees := by
  rw [subtrees_eq tree]
  exact List.mem_cons_self

theorem Within.child (h : tree.Within ids) (hc : inner ∈ tree.children) : inner.Within ids :=
  fun below hb => h below (mem_subtrees_of_child hc hb)

theorem Within.root (h : tree.Within ids) : ids tree.id := h tree tree.mem_subtrees_self

/-- The guard of the directive that leads a tree stands in the tree. -/
theorem Within.leading {directive : Directive Tree} {guard : Tree} (h : tree.Within ids)
    (hd : tree.leadingDirective? = some directive) (hg : directive.guard = some guard) :
    guard.Within ids := by
  induction tree using Tree.induction with
  | stray id => cases hd
  | node id location expansion ih =>
    cases expansion with
    | sequence units =>
      cases units with
      | nil => cases hd
      | cons first units => exact ih first List.mem_cons_self (h.child List.mem_cons_self) hd
    | lookahead found =>
      cases hd
      exact h.child (by simp [Tree.children, Expansion.children, hg])
    | _ => cases hd

/-- The guard of the directive of a repetition stands in the repetition. -/
theorem Within.loopGuard {body : Tree} {explicit : Option Tree} (hb : body.Within ids)
    (he : ∀ tree ∈ explicit, tree.Within ids) {directive : Directive Tree} {guard : Tree}
    (hd : loopDirective? body explicit = some directive) (hg : directive.guard = some guard) :
    guard.Within ids := by
  unfold loopDirective? at hd
  split at hd
  · exact hb.leading hd hg
  · cases hd
    exact (he _ rfl).leading rfl hg
  · cases hd
    cases hg
    exact he _ rfl

end Tree

variable {m : Type → Type} [Monad m]

namespace Simulation

variable (S : Simulation m)

/-- The first set of a row answers when those of its units do. -/
theorem firstOfSequence {α : Type} {a : α → m FirstSet} {b : α → Except AnalysisError FirstSet}
    {units : List α} (h : ∀ unit ∈ units, S.relates (a unit) (b unit)) (k : Nat)
    (before : FirstSet) :
    S.relates (firstOfSequence a k before units) (firstOfSequence b k before units) := by
  induction units generalizing before with
  | nil => exact S.pure before
  | cons unit units ih =>
    rw [List.forall_mem_cons] at h
    simp only [BoundedLookahead.firstOfSequence]
    split
    · exact S.pure before
    · exact S.bind h.1 fun set _ => ih h.2 _

/-- The first set of a choice answers when those of its alternatives do. -/
theorem firstOfChoice {α : Type} {a : α → m FirstSet} {b : α → Except AnalysisError FirstSet}
    {alternatives : List α} (h : ∀ unit ∈ alternatives, S.relates (a unit) (b unit))
    (others : FirstSet) :
    S.relates (firstOfChoice a others alternatives) (firstOfChoice b others alternatives) := by
  induction alternatives generalizing others with
  | nil => exact S.pure others
  | cons alternative alternatives ih =>
    rw [List.forall_mem_cons] at h
    exact S.bind h.1 fun set _ => ih h.2 _

/-- A step on the side, after which the value is given on, makes no difference. -/
theorem bind_aside {α : Type} {x : m α} {y : Except AnalysisError α} {aside : α → m Unit}
    (hx : S.relates x y) (ha : ∀ a, y = .ok a → S.relates (aside a) (.ok ())) :
    S.relates (x >>= fun a => aside a >>= fun _ => Pure.pure a) y := by
  have steps : y = (y >>= fun a => Except.ok () >>= fun _ => .ok a) := by cases y <;> rfl
  rw [steps]
  exact S.bind hx fun a h => S.bind (ha a h) fun _ _ => S.pure a

/-- What is made of a value answers when the value does. -/
theorem map {α β : Type} (S : Simulation (Except AnalysisError)) {x y : Except AnalysisError α}
    (h : S.relates x y) (f : α → β) : S.relates (x.map f) (y.map f) := by
  have step (z : Except AnalysisError α) : z.map f = (z >>= fun a => .ok (f a)) := by cases z <;> rfl
  rw [step, step]
  exact S.bind h fun a _ => S.pure (f a)

/-- A list of outcomes answers when each of them does. -/
theorem mapM {α β : Type} (S : Simulation (Except AnalysisError)) {f g : α → Except AnalysisError β}
    {inputs : List α} (h : ∀ input ∈ inputs, S.relates (f input) (g input)) :
    S.relates (inputs.mapM f) (inputs.mapM g) := by
  induction inputs with
  | nil => exact S.pure []
  | cons input inputs ih =>
    rw [List.forall_mem_cons] at h
    rw [List.mapM_cons, List.mapM_cons]
    exact S.bind h.1 fun _ _ => S.bind (ih h.2) fun _ _ => S.pure _

/-- A run answers to an outcome when it comes to it from every state with a property,
and leaves a state with the property, also where it fails. -/
def preserving {σ : Type} (keeps : σ → Prop) : Simulation (Run σ) where
  relates run outcome := ∀ state, keeps state → (run state).result = outcome ∧ keeps (run state).state
  pure value state h := ⟨rfl, h⟩
  bind {α β x y f g} hx hf state h := by
    obtain ⟨hr, hs⟩ := hx state h
    rw [Run.bind_result, Run.bind_state, hr]
    cases y with
    | error cause => exact ⟨rfl, hs⟩
    | ok value => exact hf value rfl _ hs

section

variable {σ α : Type} {keeps : σ → Prop}

/-- An outcome that needs no state stays. -/
theorem preserving_ofExcept (outcome : Except AnalysisError α) :
    (preserving keeps).relates (Run.ofExcept outcome) outcome := by
  intro state h
  rw [Run.ofExcept_result, Run.ofExcept_state]
  exact ⟨rfl, h⟩

/-- A run that looks at the state may use that the state has the property. -/
theorem preserving_get {next : σ → Run σ α} {outcome : Except AnalysisError α}
    (h : ∀ state, keeps state → (preserving keeps).relates (next state) outcome) :
    (preserving keeps).relates (Run.get >>= next) outcome :=
  fun state hs => h state hs state hs

/-- A run whose failure is reported as a value does not fail. -/
theorem preserving_attempt {run : Run σ α} {outcome : Except AnalysisError α}
    (h : (preserving keeps).relates run outcome) :
    (preserving keeps).relates
      (fun state => ⟨(run state).notes, (run state).state, .ok (run state).result⟩) (.ok outcome) :=
  fun state hs => ⟨congrArg Except.ok (h state hs).1, (h state hs).2⟩

/-- A state with the property may be set. -/
theorem preserving_set {state : σ} (h : keeps state) :
    (preserving keeps).relates (Run.set state) (.ok ()) :=
  fun _ _ => ⟨rfl, h⟩

end

end Simulation

/-- The oracle answers for the given nodes to the solutions of the grammar, and its
notes do nothing else. -/
structure Oracle.Simulates (oracle : Oracle m) (S : Simulation m) (ids : NodeId → Prop)
    (registry : Registry) (limit : Nat) : Prop where
  /-- First sets answer. -/
  first : ∀ id, ids id → ∀ k, S.relates (oracle.first id k) (registry.firstOf limit id k)
  /-- Notes are made. -/
  note : ∀ note, S.relates (oracle.note note) (.ok ())

namespace Oracle.Simulates

variable {oracle : Oracle m} {S : Simulation m} {ids : NodeId → Prop} {registry : Registry}
  {limit : Nat} (h : oracle.Simulates S ids registry limit) {scope : Scope}

include h

theorem warn (kind : DiagnosticKind) (location : Location) (message : String) :
    S.relates (oracle.warn scope kind location message)
      ((registry.oracle limit).warn scope kind location message) :=
  S.bind (h.note _) fun _ _ => S.pure _

theorem guard {directive : Option (Directive Tree)}
    (inside : ∀ found, directive = some found → ∀ tree, found.guard = some tree → tree.Within ids) :
    S.relates (oracle.guard scope directive) ((registry.oracle limit).guard scope directive) := by
  cases directive with
  | none => exact S.pure _
  | some directive =>
    have last (plain : Bool) (depth : Nat) (given : Guard) :
        S.relates (if plain then Pure.pure (depth, none) else Pure.pure (depth, some given))
          (if plain then .ok (depth, none) else .ok (depth, some given)) := by
      split <;> exact S.pure _
    obtain ⟨amount, predicate, _ | tree⟩ := directive
    · exact S.bind (S.pure _) fun _ _ => last _ _ _
    · exact S.bind (h.first _ (inside _ rfl tree rfl).root _) fun set _ =>
        S.bind (S.pure _) fun _ _ => last _ _ _

theorem checkGuard (alternative : Tree) (index : Nat) (guard : Option Guard) (set : FirstSet) :
    S.relates (oracle.checkGuard scope alternative index guard set)
      ((registry.oracle limit).checkGuard scope alternative index guard set) := by
  unfold Oracle.checkGuard
  split
  · exact S.pure _
  · split
    · exact S.pure _
    · dsimp only
      split
      · exact S.pure _
      · exact S.bind (h.warn _ _ _) fun _ _ => S.pure _

theorem entries {alternatives : List Tree} (inside : ∀ tree ∈ alternatives, tree.Within ids)
    (index : Nat) (fallback : Option Nat) :
    S.relates (oracle.entries scope index fallback alternatives)
      ((registry.oracle limit).entries scope index fallback alternatives) := by
  induction alternatives generalizing index fallback with
  | nil => exact S.pure _
  | cons alternative alternatives ih =>
    rw [List.forall_mem_cons] at inside
    refine S.bind (h.guard fun found hf tree ht => inside.1.leading hf ht) fun decided _ => ?_
    refine S.bind (h.first _ inside.1.root _) fun set _ => ?_
    cases fallback with
    | none =>
      exact S.bind (S.pure _) fun _ _ => S.bind (h.checkGuard _ _ _ _) fun _ _ =>
        S.bind (ih inside.2 _ _) fun _ _ => S.pure _
    | some before =>
      exact S.bind (h.warn _ _ _) fun _ _ => S.bind (S.pure _) fun _ _ =>
        S.bind (h.checkGuard _ _ _ _) fun _ _ => S.bind (ih inside.2 _ _) fun _ _ => S.pure _

theorem entrySet {entry : ChoiceEntry} (inside : ids entry.node) (depth : Nat) :
    S.relates (oracle.entrySet entry depth) ((registry.oracle limit).entrySet entry depth) := by
  unfold Oracle.entrySet
  split
  · exact S.pure _
  · exact h.first _ inside _

theorem ambiguity (location : Location) {a b : ChoiceEntry} (ha : ids a.node) (hb : ids b.node) :
    S.relates (oracle.ambiguity scope location a b)
      ((registry.oracle limit).ambiguity scope location a b) := by
  unfold Oracle.ambiguity
  split
  · exact S.pure _
  · refine S.bind (h.entrySet ha _) fun left _ => S.bind (h.entrySet hb _) fun right _ => ?_
    dsimp only
    split
    · exact S.pure _
    · exact S.bind (h.warn _ _ _) fun _ _ => S.pure _

theorem ambiguities (location : Location) {entries : List ChoiceEntry}
    (inside : ∀ entry ∈ entries, ids entry.node) :
    S.relates (oracle.ambiguities scope location entries)
      ((registry.oracle limit).ambiguities scope location entries) := by
  have row (a : ChoiceEntry) (ha : ids a.node) {later : List ChoiceEntry}
      (inside : ∀ entry ∈ later, ids entry.node) :
      S.relates (oracle.ambiguitiesWith scope location a later)
        ((registry.oracle limit).ambiguitiesWith scope location a later) := by
    induction later with
    | nil => exact S.pure _
    | cons b later ih =>
      rw [List.forall_mem_cons] at inside
      exact S.bind (h.ambiguity location ha inside.1) fun _ _ =>
        S.bind (ih inside.2) fun _ _ => S.pure _
  induction entries with
  | nil => exact S.pure _
  | cons a later ih =>
    rw [List.forall_mem_cons] at inside
    exact S.bind (row a inside.1 inside.2) fun _ _ => S.bind (ih inside.2) fun _ _ => S.pure _

theorem choicePoint (id : NodeId) (location : Location) {alternatives : List Tree}
    (inside : ∀ tree ∈ alternatives, tree.Within ids) :
    S.relates (oracle.choicePoint scope id location alternatives)
      ((registry.oracle limit).choicePoint scope id location alternatives) := by
  refine S.bind (h.entries inside 0 none) fun found hf => ?_
  refine S.bind (h.ambiguities location fun entry he => ?_) fun _ _ => S.pure _
  obtain ⟨alternative, ha, ht⟩ := Registry.exists_tests hf (Registry.reachedEntries_subset found.1 he)
  rw [ht.node]
  exact (inside alternative ha).root

theorem loopPoint (id : NodeId) (location : Location) (kind : RepetitionKind) {body : Tree}
    {guard : Option Tree} (hb : body.Within ids) (hg : ∀ tree ∈ guard, tree.Within ids)
    (follow : FirstSet) :
    S.relates (oracle.loopPoint scope id location kind body guard follow)
      ((registry.oracle limit).loopPoint scope id location kind body guard follow) := by
  have directive : ∀ found, loopDirective? body guard = some found →
      ∀ tree, found.guard = some tree → tree.Within ids :=
    fun found hf tree ht => hb.loopGuard hg hf ht
  refine S.bind (h.guard directive) fun decided _ => S.bind (h.first _ hb.root _) fun set _ => ?_
  dsimp only
  split
  · exact S.bind (S.pure _) fun _ _ => S.pure _
  · split
    · exact S.bind (S.pure _) fun _ _ => S.pure _
    · exact S.bind (h.warn _ _ _) fun _ _ => S.bind (S.pure _) fun _ _ => S.pure _

theorem unitFollows (follow : FirstSet) {units : List Tree} (inside : ∀ tree ∈ units, tree.Within ids) :
    S.relates (oracle.unitFollows scope follow units)
      ((registry.oracle limit).unitFollows scope follow units) := by
  induction units with
  | nil => exact S.pure _
  | cons unit units ih =>
    rw [List.forall_mem_cons] at inside
    exact S.bind (ih inside.2) fun _ _ => S.bind (h.first _ inside.1.root _) fun _ _ => S.pure _

theorem bodyFollow (kind : RepetitionKind) {body : Tree} (inside : body.Within ids)
    (follow : FirstSet) :
    S.relates (oracle.bodyFollow scope kind body follow)
      ((registry.oracle limit).bodyFollow scope kind body follow) := by
  unfold Oracle.bodyFollow
  split
  · exact S.bind (h.first _ inside.root _) fun _ _ => S.pure _
  · exact S.pure _

omit h in
theorem visitUnits {units : List Tree}
    (visits : ∀ unit ∈ units, ∀ follow, S.relates (oracle.visit scope follow unit)
      ((registry.oracle limit).visit scope follow unit)) (follows : List FirstSet) :
    S.relates (oracle.visitUnits scope follows units)
      ((registry.oracle limit).visitUnits scope follows units) := by
  induction units generalizing follows with
  | nil => exact S.pure _
  | cons unit units ih =>
    rw [List.forall_mem_cons] at visits
    exact S.bind (visits.1 _) fun _ _ => S.bind (ih visits.2 _) fun _ _ => S.pure _

omit h in
theorem visitAlternatives {alternatives : List Tree} {follow : FirstSet}
    (visits : ∀ alternative ∈ alternatives, S.relates (oracle.visit scope follow alternative)
      ((registry.oracle limit).visit scope follow alternative)) :
    S.relates (oracle.visitAlternatives scope follow alternatives)
      ((registry.oracle limit).visitAlternatives scope follow alternatives) := by
  induction alternatives with
  | nil => exact S.pure _
  | cons alternative alternatives ih =>
    rw [List.forall_mem_cons] at visits
    exact S.bind visits.1 fun _ _ => S.bind (ih visits.2) fun _ _ => S.pure _

/-- The decisions of a tree answer when the first sets of its nodes do. -/
theorem visit {tree : Tree} (inside : tree.Within ids) (follow : FirstSet) :
    S.relates (oracle.visit scope follow tree)
      ((registry.oracle limit).visit scope follow tree) := by
  induction tree using Tree.induction generalizing follow with
  | stray id => exact S.pure _
  | node id location expansion ih =>
    have below : ∀ child ∈ expansion.children, child.Within ids := fun child hc => inside.child hc
    cases expansion with
    | sequence units =>
      exact S.bind (h.unitFollows follow below) fun found _ =>
        visitUnits (fun unit hu => ih unit hu (below unit hu)) found.1
    | choice alternatives =>
      exact S.bind (h.choicePoint id location below) fun _ _ =>
        S.bind (visitAlternatives fun tree ht => ih tree ht (below tree ht) follow) fun _ _ =>
          S.pure _
    | repetition kind body guard =>
      have hb : body ∈ (Expansion.repetition kind body guard).children := by simp [Expansion.children]
      cases guard with
      | none =>
        have hg : ∀ tree ∈ (none : Option Tree), tree.Within ids := fun tree ht => by cases ht
        exact S.bind (h.loopPoint id location kind (below body hb) hg follow) fun _ _ =>
          S.bind (h.bodyFollow kind (below body hb) follow) fun _ _ =>
            S.bind (ih body hb (below body hb) _) fun _ _ => S.pure _
      | some guard =>
        have hg : guard ∈ (Expansion.repetition kind body (some guard)).children := by
          simp [Expansion.children]
        refine S.bind (h.loopPoint id location kind (below body hb) ?_ follow) fun _ _ =>
          S.bind (h.bodyFollow kind (below body hb) follow) fun _ _ =>
            S.bind (ih guard hg (below guard hg) _) fun _ _ =>
              S.bind (ih body hb (below body hb) _) fun _ _ => S.pure _
        intro tree ht
        cases ht
        exact below guard hg
    | lookahead directive =>
      obtain ⟨amount, predicate, _ | guard⟩ := directive
      · exact S.pure _
      · have hg : guard ∈ (Expansion.lookahead ⟨amount, predicate, some guard⟩).children := by
          simp [Expansion.children]
        exact ih guard hg (below guard hg) _
    | tryBlock body handlers cleanup =>
      have hb : body ∈ (Expansion.tryBlock body handlers cleanup).children := by
        simp [Expansion.children]
      exact ih body hb (below body hb) _
    | terminal kind => exact S.pure _
    | nonTerminal name args => exact S.pure _
    | action code => exact S.pure _

/-- The decisions of productions answer when the first sets of their nodes do. -/
theorem resolveRules (report : Report) (options : Options) (nullable : List String)
    {rules : List Rule} (inside : ∀ rule ∈ rules, rule.tree.Within ids) :
    S.relates (oracle.resolveRules report options nullable rules)
      ((registry.oracle limit).resolveRules report options nullable rules) := by
  induction rules with
  | nil => exact S.pure _
  | cons rule rules ih =>
    rw [List.forall_mem_cons] at inside
    simp only [Oracle.resolveRules]
    split
    · exact S.bind (h.note _) fun _ _ => S.bind (S.pure _) fun _ _ =>
        S.bind (ih inside.2) fun _ _ => S.pure _
    · exact S.bind (h.note _) fun _ _ => S.bind (h.visit inside.1 _) fun _ _ =>
        S.bind (ih inside.2) fun _ _ => S.pure _

/-- The decisions of a grammar answer when the first sets of its nodes do. -/
theorem resolve {grammar : Registry} (report : Report) (options : Options) (nullable : List String)
    (inside : ∀ rule ∈ grammar.rules, rule.tree.Within ids) :
    S.relates (oracle.resolve grammar report options nullable)
      ((registry.oracle limit).resolve grammar report options nullable) :=
  S.bind (h.note _) fun _ _ =>
    S.bind (h.resolveRules report options nullable inside) fun _ _ => S.pure _

end Oracle.Simulates

end BoundedLookahead
