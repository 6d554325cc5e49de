import BoundedLookahead.Proofs.Directives
import BoundedLookahead.Proofs.Disputes
import BoundedLookahead.Proofs.Places
import BoundedLookahead.Proofs.Safety
import BoundedLookahead.Proofs.SinglePoints
import BoundedLookahead.Proofs.Truncation

/-!
# Raising the depth

Two analyses that differ only in the depth by default make the same report and walk the
same productions. Step by step the sets of the deeper walk, cut, are part of those of
the other one: the sets of the alternatives, of the bodies, and of what follows them.
Defaults and overriding guards are the same in both. So what the deeper walk cannot
tell apart, the other one cannot either.
-/

namespace BoundedLookahead

namespace FirstSet

/-- A set at depth `m` and one at depth `n` whose members, cut, are in the first. -/
structure Deepens (m n : Nat) (small large : FirstSet) : Prop where
  /-- The first set is bounded by its depth. -/
  small_bounded : small.Bounded m
  /-- So is the second. -/
  large_bounded : large.Bounded n
  /-- Cut, the second is part of the first. -/
  trims : large.TrimsTo m small

variable {m n : Nat} {a b c d : FirstSet}

/-- ε at two depths. -/
theorem deepens_epsilon : Deepens m n epsilon epsilon :=
  ⟨bounded_epsilon, bounded_epsilon, trimsTo_epsilon⟩

/-- A union at two depths. -/
theorem Deepens.union (hac : Deepens m n a c) (hbd : Deepens m n b d) :
    Deepens m n (a.union b) (c.union d) :=
  ⟨hac.small_bounded.union hbd.small_bounded, hac.large_bounded.union hbd.large_bounded,
    hac.trims.union hbd.trims⟩

/-- A concatenation at two depths. -/
theorem Deepens.concat (hm : 1 ≤ m) (hmn : m ≤ n) (hac : Deepens m n a c)
    (hbd : Deepens m n b d) : Deepens m n (a.concat b m) (c.concat d n) := by
  have hn : 1 ≤ n := Nat.le_trans hm hmn
  refine ⟨hac.small_bounded.concat hm hbd.small_bounded,
    hac.large_bounded.concat hn hbd.large_bounded, ?_⟩
  exact TrimsTo.concat hm hmn hac.large_bounded.nil_not_mem hbd.large_bounded.nil_not_mem
    hac.small_bounded.nil_not_mem hbd.small_bounded.nil_not_mem hac.trims hbd.trims

/-- Sets in conflict at the greater depth are in conflict at the smaller one. -/
theorem Deepens.overlaps (hm : 1 ≤ m) (hac : Deepens m n a c) (hbd : Deepens m n b d)
    (h : c.overlaps d = true) : a.overlaps b = true :=
  TrimsTo.overlaps hm hac.large_bounded hbd.large_bounded hac.trims hbd.trims h

/-- Sets that are cut at smaller depths. -/
theorem Deepens.truncate {i j : Nat} (hi : 1 ≤ i) (him : i ≤ m) (hij : i ≤ j)
    (h : Deepens m n a c) : Deepens i j (a.truncate i) (c.truncate j) :=
  ⟨bounded_truncate, bounded_truncate, h.trims.truncate hi him hij h.large_bounded h.small_bounded⟩

end FirstSet

/-- The scopes are those of walks over one production that look differently far. -/
structure Scope.Deepens (small large : Scope) : Prop where
  /-- They are about the same production. -/
  production : small.production = large.production
  /-- Predicates are allowed in both or in none. -/
  allowPredicates : small.allowPredicates = large.allowPredicates
  /-- The smaller depth is not 0. -/
  positive : 0 < small.lookahead
  /-- The depth by default. -/
  lookahead : small.lookahead ≤ large.lookahead
  /-- Sets of what follows are at least as deep as the depth by default. -/
  enough : small.lookahead ≤ small.followDepth
  /-- The depth of the sets of what follows a node. -/
  followDepth : small.followDepth ≤ large.followDepth

/-- A greater depth by default gives such scopes. -/
theorem Options.scope_deepens {options : Options} {k : Nat} (positive : 0 < options.lookahead)
    (hk : options.lookahead ≤ k) (nullable : List String) (production : String) (tree : Tree) :
    (options.scope nullable production tree).Deepens
      ({ options with lookahead := k }.scope nullable production tree) where
  production := rfl
  allowPredicates := rfl
  positive := positive
  lookahead := hk
  enough := Nat.le_max_right _ _
  followDepth := by
    simp only [scope]
    omega

/-- Where entries agree on which of them is the default, the same are reached. -/
theorem forall₂_reachedEntries {R : ChoiceEntry → ChoiceEntry → Prop}
    (same : ∀ a b, R a b → a.isDefault = b.isDefault) {first second : List ChoiceEntry}
    (h : List.Forall₂ R first second) :
    List.Forall₂ R (reachedEntries first) (reachedEntries second) := by
  have default : first.findIdx? (·.isDefault) = second.findIdx? (·.isDefault) := by
    induction h with
    | nil => rfl
    | cons head rest ih => rw [List.findIdx?_cons, List.findIdx?_cons, same _ _ head, ih]
  unfold reachedEntries
  rw [default]
  split
  · exact List.forall₂_take _ h
  · exact h

namespace Registry

variable {registry : Registry} {limit : Nat} {small large : Scope} {id : NodeId}

/-- The entries test one alternative in two walks. -/
structure TestedTwice (registry : Registry) (limit : Nat) (small large : Scope)
    (a b : ChoiceEntry) : Prop where
  /-- They have the same number. -/
  alternative : a.alternative = b.alternative
  /-- Both are the default of their choice or none is. -/
  isDefault : a.isDefault = b.isDefault
  /-- They are about one tree. -/
  tests : ∃ tree, registry.InProduction tree.id ∧ registry.Tests limit small tree a ∧
    registry.Tests limit large tree b

section

variable (grounded : ∀ production ∈ registry.productions, registry.Grounded production.root)

include grounded

/-- The first sets of a node at two depths. -/
theorem Grounded.deepens_firstOf (h : registry.Grounded id) {m n : Nat} (hm : 1 ≤ m)
    (hmn : m ≤ n) {a c : FirstSet} (ha : registry.firstOf limit id m = .ok a)
    (hc : registry.firstOf limit id n = .ok c) : FirstSet.Deepens m n a c :=
  ⟨(h.mem_firstOf hm grounded ha).1, (h.mem_firstOf (Nat.le_trans hm hmn) grounded hc).1,
    h.trimsTo_firstOf grounded hm hmn ha hc⟩

/-- What units begin with at two depths. -/
theorem deepens_behind {m n : Nat} (hm : 1 ≤ m) (hmn : m ≤ n) {units : List NodeId}
    (below : ∀ unit ∈ units, registry.Grounded unit) {follow follow' next next' : FirstSet}
    (hf : FirstSet.Deepens m n follow follow')
    (h : registry.behind limit m follow units = .ok next)
    (h' : registry.behind limit n follow' units = .ok next') :
    FirstSet.Deepens m n next next' := by
  induction units generalizing next next' with
  | nil =>
    cases h
    cases h'
    exact hf
  | cons unit units ih =>
    rw [List.forall_mem_cons] at below
    obtain ⟨after, ha, h⟩ := bind_eq_ok.mp h
    obtain ⟨set, hs, h⟩ := bind_eq_ok.mp h
    cases h
    obtain ⟨after', ha', h'⟩ := bind_eq_ok.mp h'
    obtain ⟨set', hs', h'⟩ := bind_eq_ok.mp h'
    cases h'
    have first := below.1.deepens_firstOf grounded hm hmn hs hs'
    exact first.concat hm hmn (ih below.2 ha ha')

/-- What follows a node at two depths. -/
theorem deepens_followAt {m n : Nat} (hm : 1 ≤ m) (hmn : m ≤ n) {parent child : NodeId}
    {place : Place} (above : registry.Grounded parent)
    (stands : registry.Stands parent place child) {follow follow' next next' : FirstSet}
    (hf : FirstSet.Deepens m n follow follow')
    (h : registry.followAt limit m child follow place = .ok next)
    (h' : registry.followAt limit n child follow' place = .ok next') :
    FirstSet.Deepens m n next next' := by
  cases place with
  | before units =>
    have units : ∀ unit ∈ units, registry.Grounded unit := fun unit hu =>
      above.of_reaches (.single (stands.child_of_mem unit hu))
    exact deepens_behind grounded hm hmn units hf h h'
  | looped =>
    obtain ⟨set, hs, h⟩ := bind_eq_ok.mp h
    cases h
    obtain ⟨set', hs', h'⟩ := bind_eq_ok.mp h'
    cases h'
    have body := (above.of_reaches (.single stands.of_child)).deepens_firstOf grounded hm hmn hs hs'
    exact (body.union FirstSet.deepens_epsilon).concat hm hmn hf
  | apart =>
    cases h
    cases h'
    exact FirstSet.deepens_epsilon

/-- The entries of an alternative at two depths. -/
theorem Tests.deepens (hs : small.Deepens large) {alternative : Tree}
    (inside : registry.InProduction alternative.id) {a b : ChoiceEntry}
    (ha : registry.Tests limit small alternative a)
    (hb : registry.Tests limit large alternative b) :
    0 < a.depth ∧ a.depth ≤ b.depth ∧
      Guard.overridesIn a.guard = Guard.overridesIn b.guard ∧
      a.lookahead.nullable = b.lookahead.nullable := by
  have given := gives_of_guard ha.guard
  have given' := gives_of_guard hb.guard
  have positive : 0 < a.depth := depth_pos ha.guard hs.positive
  have deeper : a.depth ≤ b.depth := by
    rw [given.depth_eq, given'.depth_eq]
    exact Scope.depthOf_mono hs.lookahead
  have overrides : Guard.overridesIn a.guard = Guard.overridesIn b.guard := by
    rw [given.overrides_eq, given'.overrides_eq]
    simp only [Scope.exempts, hs.allowPredicates]
  refine ⟨positive, deeper, overrides, ?_⟩
  rw [Bool.eq_iff_iff, inside.nullable_firstOf grounded positive ha.first,
    inside.nullable_firstOf grounded (Nat.le_trans positive deeper) hb.first]

/-- The entries of a choice at two depths. -/
theorem forall₂_entries (hs : small.Deepens large) {alternatives : List Tree}
    (inside : ∀ alternative ∈ alternatives, registry.InProduction alternative.id)
    {index : Nat} {fallback : Option Nat} {result result' : List ChoiceEntry × List Diagnostic}
    (h : (registry.oracle limit).entries small index fallback alternatives = .ok result)
    (h' : (registry.oracle limit).entries large index fallback alternatives = .ok result') :
    List.Forall₂ (registry.TestedTwice limit small large) result.1 result'.1 := by
  induction alternatives generalizing index fallback result result' with
  | nil =>
    cases h
    cases h'
    exact .nil
  | cons alternative alternatives ih =>
    rw [List.forall_mem_cons] at inside
    obtain ⟨a, _, rest, ta, na, da, _, ra, rfl⟩ := entries_cons h
    obtain ⟨b, _, rest', tb, nb, db, _, rb, rfl⟩ := entries_cons h'
    obtain ⟨_, _, overrides, nullable⟩ := ta.deepens grounded hs inside.1 tb
    have same : a.isDefault = b.isDefault := by
      rw [da, db]
      simp only [becomesDefault, overrides, nullable]
    rw [← same] at rb
    refine .cons ⟨na.trans nb.symm, same, alternative, inside.1, ta, tb⟩ ?_
    exact ih inside.2 ra rb

/-- Two entries that are reported at the greater depth are reported at the smaller
one. -/
theorem ambiguity_deepens (hs : small.Deepens large) {a b a' b' : ChoiceEntry}
    (ha : registry.TestedTwice limit small large a a')
    (hb : registry.TestedTwice limit small large b b') {location : Location}
    {part part' : List Diagnostic}
    (h : (registry.oracle limit).ambiguity small location a b = .ok part)
    (h' : (registry.oracle limit).ambiguity large location a' b' = .ok part')
    {warning : Diagnostic} (hw : warning ∈ part') : ∃ common common',
      warning = large.ambiguityWarning location a'.alternative b'.alternative common' ∧
      small.ambiguityWarning location a.alternative b.alternative common ∈ part := by
  obtain ⟨first, hfirst, ta, ta'⟩ := ha.tests
  obtain ⟨second, hsecond, tb, tb'⟩ := hb.tests
  obtain ⟨positive, da, oa, _⟩ := ta.deepens grounded hs hfirst ta'
  obtain ⟨_, db, ob, _⟩ := tb.deepens grounded hs hsecond tb'
  obtain ⟨_, rfl⟩ | ⟨plain, plain', left', right', hl', hr', rfl⟩ := ambiguity_cases h'
  · cases hw
  obtain ⟨exempt, _⟩ | ⟨_, _, left, right, hl, hr, rfl⟩ := ambiguity_cases h
  · rw [oa, ob, plain, plain'] at exempt
    cases exempt
  split at hw
  · cases hw
  · next conflict =>
    have atLeast : 1 ≤ max a.depth b.depth := Nat.le_trans positive (Nat.le_max_left _ _)
    have further : max a.depth b.depth ≤ max a'.depth b'.depth := by omega
    rw [ta.entrySet, ta.node] at hl
    rw [tb.entrySet, tb.node] at hr
    rw [ta'.entrySet, ta'.node] at hl'
    rw [tb'.entrySet, tb'.node] at hr'
    have lefts := (hfirst.grounded_of grounded).deepens_firstOf grounded atLeast further hl hl'
    have rights := (hsecond.grounded_of grounded).deepens_firstOf grounded atLeast further hr hr'
    have overlap : left.overlaps right = true :=
      lefts.overlaps atLeast rights (by simpa [FirstSet.overlaps] using conflict)
    have common : ¬(left.conflicts right).isEmpty = true := by
      simpa [FirstSet.overlaps] using overlap
    rw [if_neg common]
    exact ⟨_, _, List.mem_singleton.mp hw, List.mem_singleton_self _⟩

/-- A pair of alternatives that is disputed at the greater depth is disputed at the
smaller one. -/
theorem choicePoint_deepens (hs : small.Deepens large) {location : Location}
    {alternatives : List Tree}
    (inside : ∀ alternative ∈ alternatives, registry.InProduction alternative.id)
    {point point' : Point}
    (h : (registry.oracle limit).choicePoint small id location alternatives = .ok point)
    (h' : (registry.oracle limit).choicePoint large id location alternatives = .ok point')
    {warning : Diagnostic} (hw : warning ∈ point'.warnings) {i j : Nat}
    (hd : warning.Disputes i j) : ∃ other ∈ point.warnings, other.Disputes i j := by
  obtain ⟨entries, warnings, conflicts, depth, he, hc, rfl⟩ := choicePoint_eq_ok h
  obtain ⟨entries', warnings', conflicts', depth', he', hc', rfl⟩ := choicePoint_eq_ok h'
  rcases List.mem_append.mp hw with hw | hw
  · rcases kind_of_mem_entries he' warning hw with hk | hk
    · rw [hd.1] at hk
      cases hk
    · rw [hd.1] at hk
      cases hk
  · have pairs := forall₂_reachedEntries (fun a b h => h.isDefault)
      (forall₂_entries grounded hs inside he he')
    obtain ⟨p, q, hp, hq, hpq, part', hpart', hw⟩ := exists_of_mem_ambiguities hc' hw
    have length := pairs.length_eq
    have hp' : p < (reachedEntries entries).length := length ▸ hp
    have hq' : q < (reachedEntries entries).length := length ▸ hq
    obtain ⟨part, hpart, hsub⟩ :=
      List.pairwise_iff_getElem.mp (ambiguities_pairwise hc) p q hp' hq' hpq
    have first := pairs.get hp' hp
    have second := pairs.get hq' hq
    obtain ⟨common, common', rfl, found⟩ :=
      ambiguity_deepens grounded hs first second hpart hpart' hw
    obtain ⟨rfl, rfl⟩ := hd.unique ⟨rfl, common', rfl⟩
    refine ⟨_, List.mem_append_right _ (hsub found), rfl, common, ?_⟩
    rw [← first.alternative, ← second.alternative]
    rfl

/-- A repetition that is reported at the greater depth is reported at the smaller one. -/
theorem loopPoint_deepens (hs : small.Deepens large) {location : Location} {kind : RepetitionKind}
    {body : Tree} {guard : Option Tree} (inside : registry.Grounded body.id)
    (within : ∀ found, loopDirective? body guard = some found → ∀ amount,
      found.amount = some amount → amount ≤ small.followDepth)
    {follow follow' : FirstSet}
    (hf : FirstSet.Deepens small.followDepth large.followDepth follow follow') {point point' : Point}
    (h : (registry.oracle limit).loopPoint small id location kind body guard follow = .ok point)
    (h' : (registry.oracle limit).loopPoint large id location kind body guard follow' = .ok point')
    {warning : Diagnostic} (hw : warning ∈ point'.warnings) :
    ∃ other ∈ point.warnings, other.kind = .loopConflict := by
  obtain ⟨depth, found, set, hg, hset, rfl⟩ := loopPoint_cases h
  obtain ⟨depth', found', set', hg', hset', rfl⟩ := loopPoint_cases h'
  have given := gives_of_guard hg
  have given' := gives_of_guard hg'
  have positive : 1 ≤ depth := depth_pos hg hs.positive
  have further : depth ≤ depth' := by
    rw [given.depth_eq, given'.depth_eq]
    exact Scope.depthOf_mono hs.lookahead
  have enough : depth ≤ small.followDepth := by
    rw [given.depth_eq]
    exact Scope.depthOf_le hs.enough fun found hd amount ha => within found hd amount ha
  have overrides : Guard.overridesIn found = Guard.overridesIn found' := by
    rw [given.overrides_eq, given'.overrides_eq]
    simp only [Scope.exempts, hs.allowPredicates]
  have bodies := inside.deepens_firstOf grounded positive further hset hset'
  have follows := hf.truncate positive enough further
  split at hw
  · cases hw
  · next reported =>
    simp only [Bool.or_eq_true, not_or, Bool.not_eq_true] at reported
    have overlap : set.overlaps (follow.truncate depth) = true :=
      bodies.overlaps positive follows (by simp [FirstSet.overlaps, reported.2])
    have conflict : (set.conflicts (follow.truncate depth)).isEmpty = false := by
      simpa [FirstSet.overlaps] using overlap
    rw [overrides, reported.1, conflict]
    exact ⟨_, List.mem_singleton_self _, rfl⟩

/-- Walks from a root at two depths arrive at every node below it, with sets of what
follows the node at these depths. -/
theorem exists_visits (hs : small.Deepens large) {root : NodeId} (h : registry.Grounded root)
    {points points' : List Point}
    (hv : (registry.oracle limit).visit small FirstSet.epsilon (registry.tree root) = .ok points)
    (hv' : (registry.oracle limit).visit large FirstSet.epsilon (registry.tree root) = .ok points')
    (reached : registry.Reaches root id) : ∃ follow follow' inner inner',
      FirstSet.Deepens small.followDepth large.followDepth follow follow' ∧
      (registry.oracle limit).visit small follow (registry.tree id) = .ok inner ∧ inner ⊆ points ∧
      (registry.oracle limit).visit large follow' (registry.tree id) = .ok inner' ∧
      inner' ⊆ points' := by
  have positive : 1 ≤ small.followDepth := Nat.le_trans hs.positive hs.enough
  let arrives (node : NodeId) (follow' : FirstSet) : Prop := ∃ follow inner,
    FirstSet.Deepens small.followDepth large.followDepth follow follow' ∧
    (registry.oracle limit).visit small follow (registry.tree node) = .ok inner ∧ inner ⊆ points
  have start : arrives root FirstSet.epsilon :=
    ⟨_, points, FirstSet.deepens_epsilon, hv, List.Subset.refl _⟩
  have step (parent : NodeId) (place : Place) (child : NodeId) (follow' next' : FirstSet)
      (above : registry.Reaches root parent) (stands : registry.Stands parent place child)
      (hn' : registry.followAt limit large.followDepth child follow' place = .ok next')
      (arrived : arrives parent follow') : arrives child next' := by
    obtain ⟨follow, inner, deepens, hi, hsub⟩ := arrived
    obtain ⟨next, found, hn, hfound, hsub'⟩ := (h.of_reaches above).exists_visit_child stands hi
    have further := deepens_followAt grounded positive hs.followDepth (h.of_reaches above) stands
      deepens hn hn'
    exact ⟨next, found, further, hfound, List.Subset.trans hsub' hsub⟩
  obtain ⟨follow', inner', hi', hsub', follow, inner, deepens, hi, hsub⟩ :=
    h.exists_visit_below start step hv' reached
  exact ⟨follow, follow', inner, inner', deepens, hi, hsub, hi', hsub'⟩

end

section

variable {σ τ : Type} {options : Options} {report : Report} {points points' : List Point}
  {point : Point} {final : Owners}

/-- What is reported of a node at a greater depth by default is reported of it at a
smaller one: that two alternatives are not told apart, and that a body begins like what
follows its repetition. -/
theorem points_deepen (ho : registry.owners = .ok final) (positive : 0 < options.lookahead)
    {k : Nat} (hk : options.lookahead ≤ k) (hp : registry.points report options = .ok points)
    (hp' : registry.points report { options with lookahead := k } = .ok points')
    {point' : Point} (hm : point' ∈ points') {warning : Diagnostic}
    (hw : warning ∈ point'.warnings) : ∃ point ∈ points, point.node = point'.node ∧
      (∀ i j, warning.Disputes i j → ∃ other ∈ point.warnings, other.Disputes i j) ∧
      (warning.kind = .loopConflict → ∃ other ∈ point.warnings, other.kind = .loopConflict) := by
  have grounded := grounded_production ho
  obtain ⟨production, hprod, unblocked, reached, decides⟩ :=
    exists_production_decides grounded hp' hm
  obtain ⟨all, hall, hsub⟩ := exists_visit_production hp hprod unblocked
  obtain ⟨all', hall', hsub'⟩ := exists_visit_production hp' hprod unblocked
  have deepens := Options.scope_deepens positive hk report.nullable production.name
    (registry.tree production.root)
  obtain ⟨follow, follow', inner, inner', hf, hi, hin, hi', hin'⟩ :=
    exists_visits grounded deepens (grounded production hprod) hall hall' reached
  have grounds := (grounded production hprod).of_reaches reached
  have within := grounds.within
  have standing : registry.tree point'.node ∈ (registry.tree production.root).subtrees :=
    (grounded production hprod).mem_subtrees.mpr ⟨_, reached, rfl⟩
  have rooted := grounds.tree_id
  generalize registry.tree point'.node = tree at decides hi hi' within standing rooted
  cases decides with
  | @choice node location alternatives point' h' =>
    obtain ⟨point, h, hi⟩ := bind_eq_ok.mp hi
    obtain ⟨others, _, hi⟩ := bind_eq_ok.mp hi
    cases hi
    have named := h
    obtain ⟨_, _, _, _, _, _, rfl⟩ := choicePoint_eq_ok named
    refine ⟨_, hsub (hin List.mem_cons_self), rooted, fun i j hd => ?_, fun hk => ?_⟩
    · exact choicePoint_deepens grounded deepens (InProduction.alternatives ho hprod standing) h h'
        hw hd
    · exact absurd hk (kind_ne_of_mem_choicePoint h' warning hw)
  | @repetition node location kind body guard point' other h' =>
    obtain ⟨point, _, _, h, hpoint, _⟩ := exists_visit_repetition hi
    obtain ⟨twin, _, _, h'', htwin, _⟩ := exists_visit_repetition hi'
    have node_eq {scope : Scope} {follow : FirstSet} {point : Point}
        (h : (registry.oracle options.expansionLimit).loopPoint scope node location kind body guard
          follow = .ok point) : point.node = node := (Decides.repetition follow h).node_eq
    obtain rfl : twin = point' := point_eq_of_node_eq ho hp' (hsub' (hin' htwin)) hm
      ((node_eq h'').trans (node_eq h').symm)
    refine ⟨point, hsub (hin hpoint), (node_eq h).trans (node_eq h').symm, fun i j hd => ?_,
      fun _ => ?_⟩
    · have kind := kind_of_mem_loopPoint h' warning hw
      rw [hd.1] at kind
      cases kind
    · have bodyWithin : body.Within registry.Grounded :=
        within.child (by simp [Tree.children, Expansion.children])
      refine loopPoint_deepens grounded deepens bodyWithin.root (fun found hd amount ha => ?_) hf h
        h'' hw
      exact Nat.le_trans (Tree.amount_le_of_loopDirective hd standing ha) (Nat.le_max_left _ _)

/-- What is warned of at a node at a greater depth by default is warned of there at a smaller
one. -/
theorem warningsAt_deepen (ho : registry.owners = .ok final) (positive : 0 < options.lookahead)
    {k : Nat} (hk : options.lookahead ≤ k) (hr : registry.validated options = .ok report)
    (hr' : registry.validated { options with lookahead := k } = .ok report)
    (hp : registry.points report options = .ok points)
    (hp' : registry.points report { options with lookahead := k } = .ok points')
    {id : NodeId} {warning : Diagnostic}
    (hw : warning ∈ registry.warningsAt { options with lookahead := k } id) :
    (∀ i j, warning.Disputes i j → ∃ other ∈ registry.warningsAt options id, other.Disputes i j) ∧
    (warning.kind = .loopConflict →
      ∃ other ∈ registry.warningsAt options id, other.kind = .loopConflict) := by
  rw [warningsAt_eq hr' hp'] at hw
  obtain ⟨point', hm', hw⟩ := List.mem_flatMap.mp hw
  obtain ⟨hm', hn'⟩ := List.mem_filter.mp hm'
  obtain ⟨point, hm, hn, disputes, conflicts⟩ := points_deepen ho positive hk hp hp' hm' hw
  obtain rfl : point.node = id := hn.trans (by simpa using hn')
  rw [warningsAt_eq_warnings ho hr hp hm]
  exact ⟨disputes, conflicts⟩

/-- A greater depth by default never creates a conflict. Where two analyses that differ
in this depth only succeed and make decisions, every pair of alternatives of a node that
is disputed at the greater depth is disputed at the smaller one, and every repetition
whose body begins like what follows it at the greater depth does so at the smaller one.
The conflicts that the deeper analysis reports are those at the nodes, and the other one
reports what is said there. -/
theorem conflicts_lookahead {k : Nat} (hk : options.lookahead ≤ k) {state : σ} {state' : τ}
    {shallow deep : Analysis} (analyzed : (registry.analyze options state).result = .ok shallow)
    (analyzed' : (registry.analyze { options with lookahead := k } state').result = .ok deep)
    (ran : deep.lookaheadRan = true) :
    shallow.lookaheadRan = true ∧
    (∀ id i j, ∀ warning ∈ registry.warningsAt { options with lookahead := k } id,
      warning.Disputes i j → ∃ other ∈ registry.warningsAt options id,
        other ∈ shallow.diagnostics.items ∧ other.Disputes i j) ∧
    (∀ id, ∀ warning ∈ registry.warningsAt { options with lookahead := k } id,
      warning.kind = .loopConflict → ∃ other ∈ registry.warningsAt options id,
        other ∈ shallow.diagnostics.items ∧ other.kind = .loopConflict) ∧
    ∀ warning ∈ deep.diagnostics.items, warning.kind = .ambiguity ∨ warning.kind = .loopConflict →
      ∃ id, warning ∈ registry.warningsAt { options with lookahead := k } id := by
  obtain ⟨hc, ⟨final, ho⟩, report, hr, outcome⟩ := analyze_eq_ok analyzed
  obtain ⟨_, _, report', hr', outcome'⟩ := analyze_eq_ok analyzed'
  have same : report = report' := by
    rw [validated_lookahead, hr] at hr'
    exact Except.ok.inj hr'
  subst same
  obtain ⟨free, points', hp', rfl⟩ | ⟨_, rfl⟩ := outcome'
  swap
  · cases ran
  obtain ⟨_, points, hp, made⟩ | ⟨recursive, _⟩ := outcome
  swap
  · rw [free] at recursive
    cases recursive
  have ran' : shallow.lookaheadRan = true := by rw [made]
  have positive : 0 < options.lookahead := (Options.check_eq_ok_iff.mp hc).1
  have kept {id : NodeId} {warning : Diagnostic}
      (hw : warning ∈ registry.warningsAt { options with lookahead := k } id) :=
    warningsAt_deepen ho positive hk hr hr' hp hp' hw
  have reported {id : NodeId} {about : Diagnostic → Prop}
      (warned : ∃ other ∈ registry.warningsAt options id, about other) :
      ∃ other ∈ registry.warningsAt options id, other ∈ shallow.diagnostics.items ∧ about other := by
    obtain ⟨other, hm, h⟩ := warned
    exact ⟨other, hm, mem_diagnostics_of_mem_warningsAt analyzed ran' hm, h⟩
  refine ⟨ran', fun id i j warning hw hd => reported ((kept hw).1 i j hd),
    fun id warning hw hkind => reported ((kept hw).2 hkind), fun warning hw hkind => ?_⟩
  refine exists_mem_warningsAt analyzed' hw ?_
  rcases hkind with hkind | hkind
  · simp [hkind, DiagnosticKind.ofDecisions]
  · simp [hkind, DiagnosticKind.ofDecisions]

end

/-- The grammar `S -> (a | a b)* a`. -/
def greedyLoop : Registry where
  nodes := #[⟨.terminal "a", {}⟩, ⟨.terminal "a", {}⟩, ⟨.terminal "b", {}⟩, ⟨.sequence [1, 2], {}⟩,
    ⟨.choice [0, 3], {}⟩, ⟨.repetition .zeroOrMore 4 none, {}⟩, ⟨.terminal "a", {}⟩,
    ⟨.sequence [5, 6], {}⟩]
  productions := [{ name := "S", root := (7 : Nat) }]
  tokens := ["a", "b"]

/-- Both conflicts of that grammar at depth 2 are conflicts at depth 1. -/
theorem conflicts_greedyLoop : ∃ shallow deep,
    (greedyLoop.analyze {} ()).result = .ok shallow ∧
      (greedyLoop.analyze { lookahead := 2 } ()).result = .ok deep ∧ deep.lookaheadRan = true ∧
      shallow.lookaheadRan = true ∧
      (∃ warning ∈ greedyLoop.warningsAt { lookahead := 2 } 4, warning.Disputes 0 1) ∧
      (∃ warning ∈ greedyLoop.warningsAt {} 4,
        warning ∈ shallow.diagnostics.items ∧ warning.Disputes 0 1) ∧
      (∃ warning ∈ greedyLoop.warningsAt { lookahead := 2 } 5, warning.kind = .loopConflict) ∧
      ∃ warning ∈ greedyLoop.warningsAt {} 5,
        warning ∈ shallow.diagnostics.items ∧ warning.kind = .loopConflict := by
  have first : (greedyLoop.analyze {} ()).result.toOption.isSome = true := by decide +kernel
  have second : (greedyLoop.analyze { lookahead := 2 } ()).result.toOption.map (·.lookaheadRan) =
      some true := by
    decide +kernel
  have choice : (greedyLoop.warningsAt { lookahead := 2 } 4).map (fun warning =>
      (warning.kind, warning.message)) =
        [(.ambiguity, ambiguityMessage 0 1 (WordSet.ofList [["a"]]))] := by
    decide +kernel
  have loop : (greedyLoop.warningsAt { lookahead := 2 } 5).map (·.kind) = [.loopConflict] := by
    decide +kernel
  obtain ⟨shallow, analyzed⟩ := exists_eq_ok_of_isSome first
  obtain ⟨deep, hd, ran⟩ := Option.map_eq_some_iff.mp second
  obtain ⟨disputed, _, hw, hdisputed, _⟩ := List.map_eq_cons_iff.mp choice
  obtain ⟨looped, _, hl, hlooped, _⟩ := List.map_eq_cons_iff.mp loop
  have inChoice : disputed ∈ greedyLoop.warningsAt { lookahead := 2 } 4 := hw ▸ List.mem_cons_self
  have inLoop : looped ∈ greedyLoop.warningsAt { lookahead := 2 } 5 := hl ▸ List.mem_cons_self
  rw [Prod.mk.injEq] at hdisputed
  have disputes : disputed.Disputes 0 1 := ⟨hdisputed.1, _, hdisputed.2⟩
  have analyzed' := toOption_eq_some.mp hd
  have deeper : ({} : Options).lookahead ≤ 2 := by decide
  obtain ⟨ran', choices, loops, _⟩ := conflicts_lookahead deeper analyzed analyzed' ran
  exact ⟨shallow, deep, analyzed, analyzed', ran, ran', ⟨disputed, inChoice, disputes⟩,
    choices 4 0 1 disputed inChoice disputes, ⟨looped, inLoop, hlooped⟩,
    loops 5 looped inLoop hlooped⟩

end Registry

end BoundedLookahead
